import Xv6.Sys.Look

namespace Xv6.Sys

open Lib Function

variable {P α : Type} {up : Prop} {sb : Super} {s s' : Fs P}

def NotRemoved (s : Fs P) (p : P) (path : Path) : Prop :=
  ∀ dp name, s.resolve p path true = some (dp, name) → (s.inode dp).nlink ≠ 0

def NoOrphans (s : Fs P) (p : P) (path : Path) : Prop :=
  ∀ dp name ip, s.resolve p path true = some (dp, name) → lookup (s.inode dp) name = some ip →
    (s.inode ip).type = .dir → s.isdirempty ip = true →
    ∀ d, (s.inode d).type = .dir → d ≠ ip → (s.inode d).parent ≠ ip

theorem walk_congr {t t' : Table} (ht : ∀ i, (t' i).type = (t i).type)
    (he : ∀ i, (t' i).entries = (t i).entries) (par : Bool) (ip : ℕ) (names : List Name) :
    walk t' par ip names = walk t par ip names := by
  induction names generalizing ip with
  | nil => rfl
  | cons name rest ih =>
    have hl : lookup (t' ip) name = lookup (t ip) name := by rw [lookup, lookup, he]
    simp only [walk, ht, hl, ih]

theorem Fs.resolve_congr (ht : ∀ i, (s'.inode i).type = (s.inode i).type)
    (he : ∀ i, (s'.inode i).entries = (s.inode i).entries) (hc : s'.cwd = s.cwd) (p : P)
    (path : Path) (par : Bool) : s'.resolve p path par = s.resolve p path par := by
  rw [Fs.resolve, Fs.resolve, hc, walk_congr ht he]

theorem Quiet.resolve (h : Quiet s s') (p : P) (path : Path) (par : Bool) :
    s'.resolve p path par = s.resolve p path par := by
  refine Fs.resolve_congr (fun i => ?_) (fun i => ?_) h.cwd p path par
  · rw [h.inode]
  · rw [h.inode]

theorem NotRemoved.quiet {p : P} {path : Path} (h : NotRemoved s p path) (hq : Quiet s s') :
    NotRemoved s' p path := by
  intro dp name
  rw [hq.resolve, hq.inode]
  exact h dp name

variable {i j : ℕ}

theorem Fs.iget_load_valid (h : j ≠ i) : ((s.iget i).load i).valid j = s.valid j := by
  show update (s.iget i).valid i true j = _
  rw [update_of_ne h, Fs.iget]
  split
  · rfl
  · exact update_of_ne h _ _

theorem Fs.put_inode_of_ne (h : j ≠ i) :
    ((s.reap i).drop i).inode j = s.inode j := Fs.reap_inode_of_ne h

theorem Fs.put_valid_of_ne (h : j ≠ i) : ((s.reap i).drop i).valid j = s.valid j := by
  unfold Fs.reap
  split
  · exact update_of_ne h _ _
  · rfl

theorem Fs.put_cwd (s : Fs P) (i : ℕ) : ((s.reap i).drop i).cwd = s.cwd := Fs.reap_cwd i

theorem Fs.put_file (s : Fs P) (i : ℕ) : ((s.reap i).drop i).file = s.file := Fs.reap_file i

section
variable {Q : α → Fs P → Prop} {k : Unit → Op P α}

theorem seq_modify {f : Fs P → Fs P} (h : Seq up (k ()) Q (f s)) :
    Seq up (Prog.modify f >>= k) Q s := h

theorem seq_read {β : Type} {f : Fs P → β} {k : β → Op P α} (h : Seq up (k (f s)) Q s) :
    Seq up (Prog.read f >>= k) Q s := h

variable [Fintype P] {extra held : ℕ → ℕ}

section
variable (h : Orderly sb up extra held s)
include h

theorem Orderly.setOutstanding (n : ℕ) : Orderly sb up extra held { s with outstanding := n } :=
  ⟨h.tree, h.count, h.cwd, h.opened, h.zombie, h.stale, h.clean⟩

theorem seq_beginOp (hk : ∀ s', Quiet s s' → Orderly sb up extra held s' → Seq up (k ()) Q s') :
    Seq up (beginOp >>= k) Q s :=
  seq_modify (hk _ ⟨rfl, rfl, rfl, rfl⟩ (h.setOutstanding _))

theorem seq_endOp (hk : ∀ s', Quiet s s' → Orderly sb up extra held s' → Seq up (k ()) Q s') :
    Seq up (endOp >>= k) Q s :=
  seq_modify (hk _ ⟨rfl, rfl, rfl, rfl⟩ (h.setOutstanding _))

end

abbrev Ordered (sb : Super) (up : Prop) (held : ℕ → ℕ) (x : Op P α) (s : Fs P) : Prop :=
  Seq up x (fun _ => Orderly sb up 0 held) s

theorem seq_end {r : Int} (h : Orderly sb up 0 held s) :
    Ordered sb up held (endOp >>= fun _ => pure r) s :=
  seq_endOp h fun _ _ h' => h'

theorem seq_putEnd {ip : ℕ} {r : Int} (h : Orderly sb up 0 (plus held ip) s)
    (hip : (s.inode ip).type ≠ .free) :
    Ordered sb up held (iunlockput .iput ip >>= fun _ => endOp >>= fun _ => pure r) s :=
  seq_bind (seq_iunlockput (seq_end (h.put hip)))

theorem Orderly.ref_pos {i : ℕ} (h : Orderly sb up extra (plus held i) s) (hi : i ≠ 0) :
    0 < s.ref i := by
  have := h.count i hi
  rw [plus, if_pos rfl] at this
  omega

end

section
variable {extra held : ℕ → ℕ} {dp ip : ℕ} {name : Name}

theorem Fs.used_of_noRoom {n : ℕ} {e : Dirent} (h : s.noRoom sb dp n e = none) :
    used sb (storeEntry s.inode dp n e) ≤ sb.nblocks := by
  unfold Fs.noRoom at h
  split at h
  · cases h
  · split at h
    · cases h
    · rename_i hroom
      exact not_lt.1 hroom

theorem Orderly.enter [Fintype P] (h : Orderly sb up (ahead s.inode extra dp ip) held s)
    (hdp : (s.inode dp).type = .dir) (hlive : dp = ROOTINO ∨ 0 < names sb s.inode dp)
    (hip : (s.inode ip).type ≠ .free)
    (hdir : (s.inode ip).type = .dir → ip ≠ ROOTINO ∧ names sb s.inode ip = 0)
    (hslot : s.slot dp name = none) (hroom : s.noRoom sb dp (s.spare dp) ⟨ip, name⟩ = none) :
    Orderly sb up extra held (s.writeEntry dp (s.spare dp) ⟨ip, name⟩) := by
  have hspare := h.tree.counted.spare_spec (n := s.spare dp) hdp rfl
  exact h.writeEntry (h.tree.enter hdp hlive hspare.1 hspare.2.1 hspare.2.2 hip hdir
    (h.tree.counted.plain_of_slot hdp hslot) (Fs.used_of_noRoom hroom))

end

section
variable [Fintype P] {held : ℕ → ℕ}

theorem seq_linkBad {ip : ℕ} (h : Orderly sb up (plus 0 ip) (plus held ip) s)
    (hip : (s.inode ip).type ≠ .free) : Ordered sb up held (linkBad ip) s := by
  refine seq_bind (seq_ilock_live hip fun hne => seq_modify ?_)
  have h1 := h.load hip
  have h2 := h1.subLink (by simp [Fs.load]) (h.ref_pos hne)
  have hip2 : (((s.load ip).addLink ip (-1)).inode ip).type ≠ .free := by
    simpa [Fs.addLink, Fs.setInode, Fs.load] using hip
  exact seq_putEnd h2 hip2

theorem seq_linkEnter {p : P} {new : Path} {ip : ℕ} (h : Orderly sb up (plus 0 ip) (plus held ip) s)
    (hcwd : s.cwd p ≠ 0) (hfree : (s.inode ip).type ≠ .free) (hdir : (s.inode ip).type ≠ .dir)
    (hnew : NotRemoved s p new) : Ordered sb up held (linkEnter sb p new ip) s := by
  refine seq_bind (seq_namex h hcwd (fun _ s1 hq1 h1 => ?_)
    fun dp name hres s1 hq1 h1 hlive hpar => ?_)
  · exact seq_linkBad h1 (by rwa [hq1.inode])
  have hdp : (s.inode dp).type = .dir := hpar rfl
  have hne : ip ≠ dp := by
    rintro rfl
    exact hdir hdp
  have hdpfree : (s.inode dp).type ≠ .free := by simp [hdp]
  refine seq_bind (seq_ilock_live (by rwa [hq1.inode]) fun _ => seq_bind ?_)
  have hq2 : Quiet s (s1.load dp) := hq1.trans ⟨rfl, rfl, rfl, rfl⟩
  have h2 : Orderly sb up (plus 0 ip) (plus (plus held ip) dp) (s1.load dp) :=
    h1.load (by rwa [hq1.inode])
  refine seq_dirlink h2 (fun s3 hq3 h3 => ?_) fun _ hslot hroom => ?_
  · have hq3 := hq2.trans hq3
    refine seq_bind (seq_iunlockput ?_)
    rw [if_pos (by decide)]
    refine seq_linkBad (h3.put (by rwa [hq3.inode])) ?_
    rw [Fs.put_inode_of_ne hne, hq3.inode]
    exact hfree
  · -- The name is entered, and accounts for the link that was counted.
    have hnlink : ((s1.load dp).inode dp).nlink ≠ 0 := by
      rw [hq2.inode]
      exact hnew dp name hres
    have hdp2 : ((s1.load dp).inode dp).type = .dir := by rwa [hq2.inode]
    have hip2 : ((s1.load dp).inode ip).type ≠ .dir := by rwa [hq2.inode]
    have hahead : ahead (s1.load dp).inode 0 dp ip = plus 0 ip := if_neg hip2
    have hnamed := h2.tree.named_of_nlink hdp2 hnlink (by simp [plus, Ne.symm hne])
    have h3 := Orderly.enter (hahead ▸ h2) hdp2 hnamed (by rwa [hq2.inode])
      (fun hd => absurd hd hip2) hslot hroom
    have htype : ∀ j, (((s1.load dp).writeEntry dp ((s1.load dp).spare dp)
        ⟨ip, name⟩).inode j).type = (s.inode j).type :=
      fun j => (storeEntry_type j).trans (by rw [hq2.inode])
    refine seq_bind (seq_iunlockput ?_)
    rw [if_neg (by decide)]
    have h4 := h3.put (by rwa [htype])
    refine seq_bind (seq_iput (seq_end (h4.put ?_)))
    rw [Fs.put_inode_of_ne hne, htype]
    exact hfree

theorem seq_sysLink {p : P} {old new : Option Path} (h : Orderly sb up 0 held s)
    (hcwd : s.cwd p ≠ 0)
    (hnew : ∀ path ∈ new, NotRemoved s p path) : Ordered sb up held (sysLink sb p old new) s := by
  cases old with
  | none => exact h
  | some old =>
    cases new with
    | none => exact h
    | some new =>
      refine seq_beginOp h fun s1 hq1 h1 => seq_bind ?_
      refine seq_namei h1 (by rwa [hq1.cwd]) (fun s2 _ h2 => ?_) fun ip s2 hq2 h2 hlive => ?_
      · exact seq_end h2
      have hq2 := hq1.trans hq2
      refine seq_bind (seq_ilock h2 (fun hup => ?_) fun hfree hne => ?_)
      · rw [hq2.inode, ← hq1.inode]
        exact hlive hup
      have h3 := h2.load hfree
      show Seq up (if _ then _ else _) _ (s2.load ip)
      split
      · exact seq_putEnd h3 hfree
      rename_i hdir
      have h4 := h3.addLink ip (Nat.zero_le 2)
      have htype : ∀ j, (((s2.load ip).addLink ip 1).inode j).type = (s.inode j).type :=
        fun j => (update_proj (·.type) (by rfl) j).trans (by rw [← hq2.inode]; rfl)
      refine seq_modify (seq_bind (seq_iunlock ?_))
      refine seq_linkEnter h4 ?_ ?_ ?_ (fun dp name hres => ?_)
      · show s2.cwd p ≠ 0
        rwa [hq2.cwd]
      · rwa [htype, ← hq2.inode]
      · rw [htype, ← hq2.inode]
        exact hdir
      rw [Fs.resolve_congr (s := s) htype (fun j => ?_) hq2.cwd] at hres
      · intro hz
        have hx := (h4.tree.counted.of_nlink_eq_zero hz).2.2.2
        have hdp : dp ≠ ip := by
          rintro rfl
          simp [plus] at hx
        have hsame : ((s2.load ip).addLink ip 1).inode dp = s.inode dp :=
          (update_of_ne hdp _ _).trans (by rw [← hq2.inode]; rfl)
        rw [hsame] at hz
        exact hnew new rfl dp name hres hz
      · exact (update_proj (·.entries) (by rfl) j).trans (by rw [← hq2.inode]; rfl)

end

section
variable [Fintype P] {held : ℕ → ℕ} {dp ip n : ℕ} {name : Name}

theorem seq_unlinkEntry (h : Orderly sb up 0 (plus (plus held ip) dp) s)
    (hdp : (s.inode dp).type = .dir) (hvdp : s.valid dp = true) (hvip : s.valid ip = true)
    (hn : 2 ≤ n) (hlen : n < (s.inode dp).entries.length) (hold : (s.entry dp n).inum = ip)
    (hip : ip ≠ 0) (hfree : (s.inode ip).type ≠ .free) (hne : ip ≠ dp)
    (hempty : (s.inode ip).type = .dir → ∀ e ∈ (s.inode ip).entries.drop 2, e.inum = 0)
    (hup : up → (s.inode ip).type = .dir → ∀ d, (s.inode d).type = .dir → d ≠ ip →
      (s.inode d).parent ≠ ip) : Ordered sb up held (unlinkEntry dp n ip) s := by
  have h1 := h.writeEntry (h.tree.clear hdp hn hlen hold hip hempty hup)
  generalize hs1 : s.writeEntry dp n .empty = s1 at h1
  have htype1 : ∀ j, (s1.inode j).type = (s.inode j).type := by
    subst hs1
    exact storeEntry_type
  have hvalid1 : s1.valid = s.valid := by
    subst hs1
    rfl
  obtain ⟨s2, hs2, h2, htype2, hvalid2⟩ : ∃ s2, (if (s1.inode ip).type = .dir then
      s1.addLink dp (-1) else s1) = s2 ∧ Orderly sb up (plus 0 ip) (plus (plus held ip) dp) s2 ∧
      (∀ j, (s2.inode j).type = (s.inode j).type) ∧ s2.valid = s.valid := by
    refine ⟨_, rfl, ?_⟩
    by_cases hdir : (s.inode ip).type = .dir
    · rw [if_pos ((htype1 ip).trans hdir)]
      rw [show ahead s.inode 0 dp ip = plus (plus 0 ip) dp from if_pos hdir] at h1
      have hdp0 : dp ≠ 0 := Nat.pos_iff_ne_zero.1 (h.tree.inum dp (by simp [hdp])).1
      refine ⟨h1.subLink (by rwa [hvalid1]) (h1.ref_pos hdp0), fun j => ?_, hvalid1⟩
      exact (update_proj (·.type) (by rfl) j).trans (htype1 j)
    · rw [if_neg (by rwa [htype1])]
      rw [show ahead s.inode 0 dp ip = plus 0 ip from if_neg hdir] at h1
      exact ⟨h1, htype1, hvalid1⟩
  refine seq_modify (seq_modify ?_)
  rw [hs1, hs2]
  refine seq_bind (seq_iunlockput (seq_modify ?_))
  have h3 := h2.put (by simp [htype2, hdp])
  have hinode3 : ((s2.reap dp).drop dp).inode ip = s2.inode ip := Fs.put_inode_of_ne hne
  have h4 := h3.subLink (by rw [Fs.put_valid_of_ne hne, hvalid2, hvip]) (h3.ref_pos hip)
  refine seq_putEnd h4 ?_
  simpa [Fs.addLink, Fs.setInode, hinode3, htype2] using hfree

theorem seq_unlinkName (h : Orderly sb up 0 (plus held dp) s) (hdp : (s.inode dp).type = .dir)
    (hvdp : s.valid dp = true)
    (horphan : up → ∀ ip, lookup (s.inode dp) name = some ip → (s.inode ip).type = .dir →
      s.isdirempty ip = true → ∀ d, (s.inode d).type = .dir → d ≠ ip → (s.inode d).parent ≠ ip) :
    Ordered sb up held (unlinkName sb dp name) s := by
  have hdpfree : (s.inode dp).type ≠ .free := by simp [hdp]
  unfold unlinkName
  split
  · exact seq_putEnd h hdpfree
  rename_i hplain
  rw [not_or] at hplain
  refine seq_bind (seq_dirlookup (fun _ _ => seq_putEnd h hdpfree) fun _ n hslot => ?_)
  obtain ⟨hn, hlen, he, hmem, hl⟩ := h.tree.counted.slot_spec hdp hslot hplain.1 hplain.2
  have hfree := h.tree.kids dp hdp _ hmem he
  have hnamed := h.tree.counted.names_pos hdp hmem he
  generalize hip : (s.entry dp n).inum = ip at hfree hnamed hl he ⊢
  have hq1 := quiet_iget s ip
  have hq2 : Quiet s ((s.iget ip).load ip) := hq1.trans ⟨rfl, rfl, rfl, rfl⟩
  have h2 := (h.iget ip).load (by rwa [hq1.inode])
  refine seq_bind (seq_ilock_live (by rwa [hq1.inode]) fun _ => ?_)
  show Seq up (if _ then _ else _) _ ((s.iget ip).load ip)
  split
  · exact may_of_ne (by decide) (by decide)
  have hempty' : ((s.iget ip).load ip).isdirempty ip = s.isdirempty ip := by
    rw [Fs.isdirempty, hq2.inode]
    rfl
  simp only [hq2.inode, hempty']
  split
  · -- A directory with names in it stays; its reference is not the last.
    have hdead : ((s.iget ip).load ip).dead ip = false := by
      refine h2.not_dead fun hz _ => ?_
      rw [hq2.inode] at hz
      exact absurd hz (h.tree.counted.nlink_ne_zero (.inr hnamed))
    refine seq_bind (seq_iunlockput ?_)
    rw [Fs.reap_of_not_dead hdead]
    refine seq_putEnd (h2.drop hdead) ?_
    show (((s.iget ip).load ip).inode dp).type ≠ .free
    rwa [hq2.inode]
  · rename_i hok
    rw [not_and, Bool.not_eq_false] at hok
    have hempty : (s.inode ip).type = .dir → ∀ e ∈ (s.inode ip).entries.drop 2, e.inum = 0 := by
      intro hd
      simpa [Fs.isdirempty] using hok hd
    have hne : ip ≠ dp := by
      rintro rfl
      exact he (hip ▸ hempty hdp _ hmem)
    rw [plus_comm] at h2
    have hvdp2 := (Fs.iget_load_valid (.symm hne)).trans hvdp
    have hvip2 : ((s.iget ip).load ip).valid ip = true := by simp [Fs.load]
    have hold : ((s.iget ip).load ip).entry dp n = s.entry dp n := by
      rw [Fs.entry, hq2.inode, Fs.entry]
    have horphan' : up → (s.inode ip).type = .dir → ∀ d, (s.inode d).type = .dir → d ≠ ip →
        (s.inode d).parent ≠ ip := fun hup hd => horphan hup ip hl hd (hok hd)
    rw [← hq2.inode] at hdp hlen hfree hempty horphan'
    exact seq_unlinkEntry h2 hdp hvdp2 hvip2 hn hlen (hold ▸ hip) he hfree hne hempty horphan'

theorem seq_sysUnlink {p : P} {path : Option Path} (h : Orderly sb up 0 held s) (hcwd : s.cwd p ≠ 0)
    (horphan : up → ∀ q ∈ path, NoOrphans s p q) : Ordered sb up held (sysUnlink sb p path) s := by
  cases path with
  | none => exact h
  | some path =>
    refine seq_beginOp h fun s1 hq1 h1 => seq_bind ?_
    refine seq_namex h1 (by rwa [hq1.cwd]) (fun _ s2 _ h2 => ?_)
      fun dp name hres s2 hq2 h2 _ hpar => ?_
    · exact seq_end h2
    have hdp : (s2.inode dp).type = .dir := by
      rw [hq2.inode]
      exact hpar rfl
    rw [hq1.resolve] at hres
    have hq3 : Quiet s (s2.load dp) := (hq1.trans hq2).trans ⟨rfl, rfl, rfl, rfl⟩
    refine seq_bind (seq_ilock_live (by simp [hdp]) fun _ => ?_)
    refine seq_unlinkName (h2.load (by simp [hdp])) hdp (by simp [Fs.load])
      (fun hup ip hl hd hempty => ?_)
    rw [hq3.inode] at hl hd ⊢
    rw [Fs.isdirempty, hq3.inode] at hempty
    exact horphan hup path rfl dp name ip hres hl hd hempty

end

variable [Fintype P] {held : ℕ → ℕ} {dp i : ℕ} {name : Name} {type : IType} {major minor : Int16}

omit [Fintype P] in
theorem seq_iallocLoop {Q : ℕ → Fs P → Prop} {is : List ℕ}
    (hQ : ∀ i ∈ is, (s.inode i).type = .free → Q i ((s.alloc i type).iget i)) :
    Seq up (iallocLoop sb type is) Q s := by
  induction is with
  | nil => exact may_of_ne (by decide) (by decide)
  | cons i rest ih =>
    by_cases hfree : (s.inode i).type = .free
    · show Seq up (if _ then _ else _) Q (if _ then _ else _)
      rw [if_pos hfree, if_pos hfree]
      exact seq_bind (seq_iget (hQ i (List.mem_cons_self ..) hfree))
    · show Seq up (if _ then _ else _) Q (if _ then _ else _)
      rw [if_neg hfree, if_neg hfree]
      exact ih fun j hj => hQ j (List.mem_cons_of_mem _ hj)

omit [Fintype P] in
theorem seq_ialloc {Q : ℕ → Fs P → Prop}
    (hQ : ∀ i, 0 < i → i < sb.ninodes → (s.inode i).type = .free →
      Q i ((s.alloc i type).iget i)) : Seq up (ialloc sb type) Q s := by
  refine seq_iallocLoop fun i hi => ?_
  rw [List.mem_range'_1] at hi
  exact hQ i (by omega) (by omega)

def newInode (type : IType) (major minor : Int16) (es : List Dirent) : Inode :=
  ⟨type, major, minor, 1, 0, es⟩

omit [Fintype P] in
theorem made_alloc (s : Fs P) (i : ℕ) (type : IType) (major minor : Int16) :
    Made s ((((s.alloc i type).iget i).load i).initInode i major minor) i
      (newInode type major minor []) := by
  have hq := quiet_iget (s.alloc i type) i
  refine ⟨?_, fun j => Fs.iget_ref (s.alloc i type) i j, fun j hj => ?_, hq.file, hq.cwd, hq.hist⟩
  · have hx : ((s.alloc i type).iget i).inode = update s.inode i ⟨type, 0, 0, 0, 0, []⟩ :=
      hq.inode
    simp [Fs.initInode, Fs.setInode, Fs.load, hx, newInode]
  · exact Fs.iget_load_valid hj

omit [Fintype P] in
theorem Made.addLink {s s' : Fs P} {x : Inode} (h : Made s s' i x) (hne : dp ≠ i) :
    Made (s.addLink dp 1) (s'.addLink dp 1) i x := by
  refine ⟨?_, h.ref, h.valid, h.file, h.cwd, h.hist⟩
  simp only [Fs.addLink, Fs.setInode, h.inode, update_of_ne hne]
  exact update_comm (.symm hne) _ _ _

omit [Fintype P] in
theorem Made.writeEntry {s s' : Fs P} {x : Inode} {n : ℕ} {e : Dirent} (h : Made s s' i x) :
    Made s (s'.writeEntry i n e) i (x.store n e) := by
  refine ⟨?_, h.ref, h.valid, h.file, h.cwd, h.hist⟩
  simp [Fs.writeEntry, Fs.setInode, h.inode, Inode.store]

omit [Fintype P] in
theorem seq_createDots {Q : Unit → Fs P → Prop} {s s' : Fs P}
    (h : Made s s' i (newInode .dir major minor [])) (hi : i ≠ 0) (hne : dp ≠ i)
    (hQ : ∀ s'', Made (s.addLink dp 1) s'' i
      (newInode .dir major minor [⟨i, dot⟩, ⟨dp, dotdot⟩]) → used sb s''.inode ≤ sb.nblocks →
      Q () s'') : Seq up (createDots sb dp i) Q s' := by
  have h1 := h.addLink hne
  refine seq_modify ?_
  generalize s'.addLink dp 1 = s1 at h1 ⊢
  have hspare1 : s1.spare i = 0 := by simp [Fs.spare, h1.inode, newInode]
  refine seq_bind (seq_dirlink_new (by simp [Fs.slot, h1.inode, newInode]) fun _ _ => ?_)
  rw [if_neg (by decide), hspare1]
  have h2 : Made (s.addLink dp 1) (s1.writeEntry i 0 ⟨i, dot⟩) i
      (newInode .dir major minor [⟨i, dot⟩]) := h1.writeEntry
  generalize s1.writeEntry i 0 ⟨i, dot⟩ = s2 at h2 ⊢
  have hspare2 : s2.spare i = 1 := by simp [Fs.spare, h2.inode, newInode, hi]
  have hslot2 : s2.slot i dotdot = none := by
    simp [Fs.slot, h2.inode, newInode, dot, dotdot]
  refine seq_bind (seq_dirlink_new hslot2 fun _ hroom => ?_)
  rw [if_neg (by decide)]
  have hroom := Fs.used_of_noRoom hroom
  rw [hspare2] at hroom ⊢
  exact hQ _ h2.writeEntry hroom

variable {Q : Option ℕ → Fs P → Prop}

theorem seq_createEnter {b : Fs P} {x : Inode} {extra : ℕ → ℕ}
    (h : Orderly sb up extra (plus held dp) b)
    (hextra : (if x.type = .dir then plus 0 dp else 0) = extra) (hm : Made b s i x)
    (hi : 0 < i ∧ i < sb.ninodes) (hfree : (b.inode i).type = .free)
    (hdp : (b.inode dp).type = .dir) (hlive : dp = ROOTINO ∨ 0 < names sb b.inode dp)
    (hslot : b.slot dp name = none) (hx : x.type ≠ .free) (hlink : x.nlink = 1)
    (hdots : x.type = .dir → x.entries = [⟨i, dot⟩, ⟨dp, dotdot⟩])
    (hroom : used sb s.inode ≤ sb.nblocks)
    (hQ : ∀ s', Orderly sb up 0 (plus held i) s' → (s'.inode i).type = x.type → Q (some i) s') :
    Seq up (do
      let r ← dirlink sb dp name i
      if r < 0 then .panic .createDirlink
      else do
        iunlockput .putParent dp
        pure (some i)) Q s := by
  have hdp0 : dp ≠ 0 := Nat.pos_iff_ne_zero.1 (h.tree.inum dp (by simp [hdp])).1
  have hne : dp ≠ i := by
    rintro rfl
    simp [hdp] at hfree
  have hroot : i ≠ ROOTINO := by
    rintro rfl
    simp [h.tree.root] at hfree
  subst hextra
  have hextra : (if x.type = .dir then plus 0 dp else 0) i = 0 := by
    split
    · simp [plus, Ne.symm hne]
    · rfl
  have htree := h.tree.create hfree hi hextra hlink
    (fun hd => ⟨dp, hdp0, hdots hd, fun _ => hlive.imp_right fun hn => ⟨hdp, hn⟩⟩)
    (hm.inode ▸ hroom)
  have h1 := h.made hfree hx (by simp [hlink]) htree hm
  have hself : s.inode i = x := by rw [hm.inode, update_self]
  have hinode : s.inode dp = b.inode dp := by rw [hm.inode, update_of_ne hne]
  have hnames : ∀ j, names sb s.inode j = names sb b.inode j := by
    intro j
    rw [hm.inode]
    refine names_update_empty hi.2 (fun q => Inode.count_of_type (by simp [hfree]) q)
      (fun q => ?_) j
    by_cases hd : x.type = .dir
    · exact Inode.count_of_empty (by simp [hdots hd]) q
    · exact Inode.count_of_type hd q
  have hahead : plus (if x.type = .dir then plus 0 dp else 0) i = ahead s.inode 0 dp i := by
    rw [ahead, hself]
    split
    · exact plus_comm 0 dp i
    · rfl
  rw [hahead] at h1
  have hslot : s.slot dp name = none := by rwa [Fs.slot, hinode]
  have hdp : (s.inode dp).type = .dir := by rwa [hinode]
  refine seq_bind (seq_dirlink_new hslot fun _ hroom => ?_)
  rw [if_neg (by decide)]
  have h2 := h1.enter hdp (by rwa [hnames]) (by rwa [hself])
    (fun _ => ⟨hroot, (hnames i).trans (names_of_free h.tree.counted.kids hfree)⟩) hslot hroom
  rw [plus_comm] at h2
  generalize hs2 : s.writeEntry dp (s.spare dp) ⟨i, name⟩ = s2 at h2 ⊢
  have htype : ∀ j, (s2.inode j).type = (s.inode j).type := by
    subst hs2
    exact storeEntry_type
  refine seq_bind (seq_iunlockput (hQ _ (h2.put ?_) ?_))
  · simp [htype, hdp]
  · rw [Fs.put_inode_of_ne (.symm hne), htype, hself]

theorem seq_createNew (h : Orderly sb up 0 (plus held dp) s)
    (htype : type ≠ .free) (hdp : (s.inode dp).type = .dir) (hnlink : (s.inode dp).nlink ≠ 0)
    (hslot : s.slot dp name = none)
    (hQ : ∀ i s', Orderly sb up 0 (plus held i) s' → (s'.inode i).type = type → Q (some i) s') :
    Seq up (createNew sb dp name type major minor) Q s := by
  have hlive := h.tree.named_of_nlink hdp hnlink rfl
  refine seq_bind (seq_ialloc fun i hpos hlt hfree => ?_)
  have hm := made_alloc s i type major minor
  have hq1 := quiet_iget (s.alloc i type) i
  refine seq_bind (seq_ilock_live ?_ fun _ => seq_modify ?_)
  · rw [hq1.inode]
    simpa [Fs.alloc] using htype
  generalize (((s.alloc i type).iget i).load i).initInode i major minor = s1 at hm ⊢
  by_cases hdir : type = .dir
  · subst hdir
    have hne : dp ≠ i := by
      rintro rfl
      simp [hdp] at hfree
    have h1 := h.addLink dp (Nat.zero_le 2)
    have hentries : ((s.addLink dp 1).inode dp).entries = (s.inode dp).entries :=
      update_proj (·.entries) (by rfl) dp
    have htypes : ∀ j, ((s.addLink dp 1).inode j).type = (s.inode j).type :=
      update_proj (·.type) (by rfl)
    have hnames : names sb (s.addLink dp 1).inode dp = names sb s.inode dp :=
      names_congr htypes (update_proj (·.entries) (by rfl)) dp
    rw [if_pos rfl]
    refine seq_bind (seq_createDots hm (by omega) hne fun s2 hm2 hroom => ?_)
    exact seq_createEnter h1 (if_pos rfl) hm2 ⟨hpos, hlt⟩ (by rwa [htypes]) (by rwa [htypes])
      (by rwa [hnames]) (by rwa [Fs.slot, hentries]) htype rfl (fun _ => rfl) hroom
      fun s' h' ht => hQ i s' h' ht
  · rw [if_neg hdir]
    have hroom : used sb s1.inode ≤ sb.nblocks := by
      have hu := used_update hlt s.inode (newInode type major minor [])
      have hz : blocksOf (newInode type major minor []).size = 0 := by
        simp [newInode, Inode.size, hdir, blocksOf, BSIZE]
      have := h.tree.room
      rw [hm.inode]
      omega
    exact seq_createEnter h (if_neg hdir) hm ⟨hpos, hlt⟩ hfree hdp hlive hslot htype rfl
      (fun hd => absurd hd hdir) hroom fun s' h' ht => hQ i s' h' ht

theorem seq_create {p : P} {path : Path}
    (h : Orderly sb up 0 held s) (hcwd : s.cwd p ≠ 0) (htype : type ≠ .free)
    (hnew : NotRemoved s p path) (hnone : ∀ s', Orderly sb up 0 held s' → Q none s')
    (hsome : ∀ i s', Orderly sb up 0 (plus held i) s' → (s'.inode i).type = type →
      Q (some i) s') : Seq up (create sb p path type major minor) Q s := by
  refine seq_bind (seq_namex h hcwd (fun _ s1 _ h1 => hnone s1 h1)
    fun dp name hres s1 hq1 h1 _ hpar => ?_)
  have hdp : (s1.inode dp).type = .dir := by
    rw [hq1.inode]
    exact hpar rfl
  have hnlink : (s1.inode dp).nlink ≠ 0 := by
    rw [hq1.inode]
    exact hnew dp name hres
  have h2 := h1.load (by simp [hdp] : (s1.inode dp).type ≠ .free)
  refine seq_bind (seq_ilock_live (by simp [hdp]) fun _ => seq_bind ?_)
  refine seq_dirlookup (fun _ hslot => seq_createNew h2 htype hdp hnlink hslot hsome)
    fun _ n hslot => ?_
  generalize hip : ((s1.load dp).entry dp n).inum = ip
  have h3 := h2.iget ip
  have hq3 := quiet_iget (s1.load dp) ip
  have hdead : ((s1.load dp).iget ip).dead dp = false := by
    refine h3.not_dead fun hz => ?_
    rw [hq3.inode] at hz
    exact absurd hz hnlink
  rw [plus_comm] at h3
  refine seq_bind (seq_iunlockput ?_)
  rw [Fs.reap_of_not_dead hdead]
  have h4 := h3.drop hdead
  have hinode4 : (((s1.load dp).iget ip).drop dp).inode = s1.inode := hq3.inode
  refine seq_bind (seq_ilock h4 (fun hup => ?_) fun hfree _ => ?_)
  · obtain ⟨hlen, he, -⟩ := List.findIdx?_eq_some_iff_getElem.1 hslot
    simp only [Bool.and_eq_true, decide_eq_true_eq] at he
    have hget : (s1.load dp).entry dp n = (s1.inode dp).entries[n] := by
      rw [Fs.entry, List.getD, List.getElem?_eq_getElem hlen]
      rfl
    rw [hinode4, ← hip, hget]
    exact h1.tree.entry_live hup hdp (List.getElem_mem hlen) he.1
  · have h5 := h4.load hfree
    show Seq up (if _ then _ else _) Q _
    split
    · rename_i hfile
      exact hsome ip _ h5 (hfile.2.trans hfile.1.symm)
    · exact seq_bind (seq_iunlockput (hnone _ (h5.put hfree)))

theorem seq_mknodEnd (r : Option ℕ) (h : Orderly sb up 0 (r.elim held (plus held)) s)
    (hr : ∀ i ∈ r, (s.inode i).type ≠ .free) : Ordered sb up held (mknodEnd r) s := by
  cases r with
  | none => exact seq_end h
  | some i => exact seq_putEnd h (hr i rfl)

theorem seq_mknod {p : P} {path : Option Path} (h : Orderly sb up 0 held s) (hcwd : s.cwd p ≠ 0)
    (htype : type ≠ .free) (hnew : ∀ q ∈ path, NotRemoved s p q) :
    Ordered sb up held (makeNode sb p path type major minor) s := by
  refine seq_beginOp h fun s1 hq1 h1 => ?_
  cases path with
  | none => exact seq_mknodEnd none h1 (by simp)
  | some path =>
    refine seq_bind (seq_create h1 (by rwa [hq1.cwd]) htype ((hnew path rfl).quiet hq1)
      (fun s' h' => seq_mknodEnd none h' (by simp)) fun i s' h' ht => ?_)
    exact seq_mknodEnd (some i) h' (by simpa [ht] using htype)

end Xv6.Sys
