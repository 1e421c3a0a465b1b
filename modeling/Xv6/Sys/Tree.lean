import Xv6.Sys.Links

/-!
The directory tree.

A directory has at most one name. One that has been removed has no name,
and no names in it. What the entry `".."` of a removed directory leads to
is a separate matter, since link counts do not cover it; `Tree` speaks
about it only when its parameter `up` holds.

There is one lemma for each change to the table of inodes; what they say
about names and link counts comes from `Counted`.
-/

namespace Xv6.Sys

open Function

structure Tree (sb : Super) (up : Prop) (extra : ℕ → ℕ) (t : Table) : Prop where
  root : (t ROOTINO).type = .dir
  inum : ∀ i, (t i).type ≠ .free → 0 < i ∧ i < sb.ninodes
  room : used sb t ≤ sb.nblocks
  links : ∀ i, (t i).nlink.toInt =
    names sb t i + subdirs t i + (if i = ROOTINO then 1 else 0 : ℕ) + extra i
  dots : ∀ d, (t d).type = .dir → ∃ par, par ≠ 0 ∧
    (t d).entries.take 2 = [⟨d, dot⟩, ⟨par, dotdot⟩]
  plain : ∀ d, (t d).type = .dir → ∀ e ∈ (t d).entries.drop 2, e.inum ≠ 0 →
    e.name ≠ dot ∧ e.name ≠ dotdot
  kids : ∀ d, (t d).type = .dir → ∀ e ∈ (t d).entries.drop 2, e.inum ≠ 0 →
    (t e.inum).type ≠ .free
  once : ∀ i, (t i).type = .dir → names sb t i ≤ 1
  top : names sb t ROOTINO = 0
  removed : ∀ d, (t d).type = .dir → d ≠ ROOTINO → names sb t d = 0 →
    ∀ e ∈ (t d).entries.drop 2, e.inum = 0
  parents : up → ∀ d, (t d).type = .dir → (t d).parent = d ∨ (t d).parent = ROOTINO ∨
    (t (t d).parent).type = .dir ∧ 0 < names sb t (t d).parent

variable {sb : Super} {up : Prop} {extra : ℕ → ℕ} {t t' : Table}

namespace Tree

theorem counted (h : Tree sb up extra t) : Counted sb extra t :=
  ⟨h.root, h.inum, h.links, h.dots, h.plain, h.kids, h.once⟩

theorem of_counted (h : Counted sb extra t) (hroom : used sb t ≤ sb.nblocks)
    (htop : names sb t ROOTINO = 0)
    (hremoved : ∀ d, (t d).type = .dir → d ≠ ROOTINO → names sb t d = 0 →
      ∀ e ∈ (t d).entries.drop 2, e.inum = 0)
    (hparents : up → ∀ d, (t d).type = .dir → (t d).parent = d ∨ (t d).parent = ROOTINO ∨
      (t (t d).parent).type = .dir ∧ 0 < names sb t (t d).parent) : Tree sb up extra t :=
  ⟨h.root, h.inum, hroom, h.links, h.dots, h.plain, h.kids, h.once, htop, hremoved, hparents⟩

section
variable (h : Tree sb up extra t)
include h

theorem dots_of_empty {d : ℕ} (hd : (t d).type = .dir)
    (hempty : ∀ e ∈ (t d).entries.drop 2, e.inum = 0) {e : Dirent} (he : e ∈ (t d).entries)
    (hz : e.inum ≠ 0) : e.name = dot ∨ e.name = dotdot := by
  obtain ⟨par, -, htake⟩ := h.dots d hd
  rw [← List.take_append_drop 2 (t d).entries, htake] at he
  rcases List.mem_append.1 he with he | he
  · rcases List.mem_cons.1 he with rfl | he
    · exact .inl rfl
    · rcases List.mem_singleton.1 he with rfl
      exact .inr rfl
  · exact absurd (hempty e he) hz

theorem named_of_nlink {d : ℕ} (hd : (t d).type = .dir)
    (hz : (t d).nlink ≠ 0) (hx : extra d = 0) : d = ROOTINO ∨ 0 < names sb t d := by
  by_contra hne
  rw [not_or] at hne
  obtain ⟨hr, hn⟩ := hne
  have hn : names sb t d = 0 := by omega
  have hs : subdirs t d = 0 := Inode.count_of_empty (h.removed d hd hr hn) _
  have hl := h.links d
  rw [if_neg hr, hn, hs, hx] at hl
  exact hz (Int16.toInt_inj.1 hl)

theorem links_le (i : ℕ) : names sb t i + subdirs t i ≤ 32001 := by
  have hroom := h.room
  have hmax := sb.nblocks_le
  simp only [FSSIZE] at hmax
  by_cases hi : (t i).type = .dir
  · have hlt := (h.inum i (by simp [hi])).2
    have hone := h.once i hi
    have hsub : subdirs t i ≤ 32 * blocksOf (t i).size :=
      (Inode.count_le_length _ _).trans (blocksOf_entries hi)
    have hused : blocksOf (t i).size ≤ used sb t :=
      Finset.single_le_sum (f := fun d => blocksOf (t d).size) (fun _ _ => Nat.zero_le _)
        (Finset.mem_range.2 hlt)
    omega
  · have hsub : subdirs t i = 0 := Inode.count_of_type hi _
    have hnames : names sb t i ≤ 32 * used sb t := by
      rw [used, Finset.mul_sum]
      refine Finset.sum_le_sum fun d _ => ?_
      by_cases hd : (t d).type = .dir
      · exact (Inode.count_le_length _ _).trans (blocksOf_entries hd)
      · rw [Inode.count_of_type hd]
        exact Nat.zero_le _
    omega

theorem of_shape {extra' : ℕ → ℕ} (hcount : Counted sb extra' t')
    (ht : ∀ i, (t' i).type = (t i).type) (he : ∀ i, (t' i).entries = (t i).entries)
    (hroom : used sb t' ≤ sb.nblocks) : Tree sb up extra' t' := by
  refine of_counted hcount hroom ?_ (fun d hd => ?_) fun hup d hd => ?_
  · rw [names_congr ht he]
    exact h.top
  · rw [names_congr ht he, he]
    exact h.removed d (ht d ▸ hd)
  · have hp : (t' d).parent = (t d).parent := by rw [Inode.parent, Inode.parent, he]
    rw [hp, ht, names_congr ht he]
    exact h.parents hup d (ht d ▸ hd)

theorem relink {extra' : ℕ → ℕ} {i : ℕ} {n : Int16}
    (hcount : Counted sb extra' (update t i { t i with nlink := n })) :
    Tree sb up extra' (update t i { t i with nlink := n }) := by
  refine h.of_shape hcount (update_proj (·.type) (by rfl)) (update_proj (·.entries) (by rfl)) ?_
  refine (used_congr fun j => ?_).le.trans h.room
  exact update_proj Inode.size (by rfl) j

theorem addLink (i : ℕ) (hx : extra i ≤ 2) :
    Tree sb up (plus extra i) (update t i { t i with nlink := (t i).nlink + 1 }) := by
  have hl := h.links i
  have hle := h.links_le i
  have hroot : (if i = ROOTINO then 1 else 0) ≤ 1 := by split <;> omega
  exact h.relink (h.counted.addLink i (by omega))

end

theorem subLink {i : ℕ} (h : Tree sb up (plus extra i) t) :
    Tree sb up extra (update t i { t i with nlink := (t i).nlink + -1 }) :=
  h.relink h.counted.subLink

end Tree

/-! ### Names come and go -/

namespace Tree

variable {dp n ip : ℕ} {e : Dirent} {name : Name}

theorem storeEntry {extra' : ℕ → ℕ} (h : Tree sb up extra t) (hdp : (t dp).type = .dir)
    (hn : 2 ≤ n) (hcount : Counted sb extra' (storeEntry t dp n e))
    (hroom : used sb (Sys.storeEntry t dp n e) ≤ sb.nblocks)
    (htop : names sb (Sys.storeEntry t dp n e) ROOTINO = 0)
    (hremoved : ∀ d, (t d).type = .dir → d ≠ ROOTINO → names sb (Sys.storeEntry t dp n e) d = 0 →
      d ≠ dp ∧ ∀ x ∈ (t d).entries.drop 2, x.inum = 0)
    (hparents : up → ∀ d, (t d).type = .dir → (t d).parent ≠ d → 0 < names sb t (t d).parent →
      0 < names sb (Sys.storeEntry t dp n e) (t d).parent) :
    Tree sb up extra' (Sys.storeEntry t dp n e) := by
  refine of_counted hcount hroom htop (fun d hd hr hz x hx => ?_) fun hup d hd => ?_
  · rw [storeEntry_type] at hd
    obtain ⟨hne, hempty⟩ := hremoved d hd hr hz
    rw [storeEntry_of_ne hne] at hx
    exact hempty x hx
  rw [storeEntry_type] at hd
  rw [Inode.parent_eq_of_take (h.counted.take_storeEntry hdp hn d), storeEntry_type]
  by_cases hself : (t d).parent = d
  · exact .inl hself
  · refine (h.parents hup d hd).imp_right fun hp => hp.imp_right fun hp => ?_
    exact ⟨hp.1, hparents hup d hd hself hp.2⟩

theorem enter (h : Tree sb up (ahead t extra dp ip) t) (hdp : (t dp).type = .dir)
    (hlive : dp = ROOTINO ∨ 0 < names sb t dp) (hn : 2 ≤ n) (hlen : n ≤ (t dp).entries.length)
    (hold : ((t dp).entries.getD n .empty).inum = 0) (hip : (t ip).type ≠ .free)
    (hdir : (t ip).type = .dir → ip ≠ ROOTINO ∧ names sb t ip = 0)
    (hname : name ≠ dot ∧ name ≠ dotdot)
    (hroom : used sb (Sys.storeEntry t dp n ⟨ip, name⟩) ≤ sb.nblocks) :
    Tree sb up extra (Sys.storeEntry t dp n ⟨ip, name⟩) := by
  have hip0 : ip ≠ 0 := Nat.pos_iff_ne_zero.1 (h.inum ip hip).1
  have hnames : ∀ i, names sb (Sys.storeEntry t dp n ⟨ip, name⟩) i = _ :=
    h.counted.names_enter hdp hn hlen hold hip0
  have hcount := h.counted.enter hdp hn hlen hold hip (fun hd => (hdir hd).2) hname
  refine h.storeEntry hdp hn hcount hroom ?_ (fun d hd hr hz => ?_) fun _ d _ _ hp => ?_
  · rw [hnames, h.top, if_neg]
    rintro rfl
    exact (hdir h.root).1 rfl
  · rw [hnames] at hz
    refine ⟨?_, h.removed d hd hr (by omega)⟩
    rintro rfl
    rcases hlive with hlive | hlive
    · exact hr hlive
    · omega
  · rw [hnames]
    omega

theorem clear (h : Tree sb up extra t) (hdp : (t dp).type = .dir) (hn : 2 ≤ n)
    (hlen : n < (t dp).entries.length) (hold : ((t dp).entries.getD n .empty).inum = ip)
    (hip : ip ≠ 0) (hempty : (t ip).type = .dir → ∀ e ∈ (t ip).entries.drop 2, e.inum = 0)
    (hup : up → (t ip).type = .dir → ∀ d, (t d).type = .dir → d ≠ ip → (t d).parent ≠ ip) :
    Tree sb up (ahead t extra dp ip) (Sys.storeEntry t dp n .empty) := by
  have hmem : (t dp).entries.getD n .empty ∈ (t dp).entries.drop 2 := by
    have hget : (t dp).entries.getD n .empty = (t dp).entries[n] := by simp [List.getD, hlen]
    rw [hget, List.mem_drop_iff_getElem]
    exact ⟨n - 2, by omega, by congr 1; omega⟩
  have hne : dp ≠ ip := by
    rintro rfl
    exact hip (hold ▸ hempty hdp _ hmem)
  have hnames := h.counted.names_clear hdp hn hlen hold hip
  refine h.storeEntry hdp hn (h.counted.clear hdp hn hlen hold hip) ?_ ?_ (fun d hd hr hz => ?_)
    fun hup' d hd hself hp => ?_
  · refine (used_congr fun i => ?_).le.trans h.room
    unfold Sys.storeEntry
    refine update_proj Inode.size ?_ i
    simp [Inode.size, Inode.store, Fs.store, hdp, hlen]
  · have h1 := hnames ROOTINO
    have h2 := h.top
    omega
  · have h1 := hnames d
    by_cases hdi : d = ip
    · subst hdi
      exact ⟨.symm hne, hempty hd⟩
    rw [if_neg hdi] at h1
    have hempty' := h.removed d hd hr (by omega)
    refine ⟨?_, hempty'⟩
    rintro rfl
    exact hip (hold ▸ hempty' _ hmem)
  · have h1 := hnames (t d).parent
    by_cases hpi : (t d).parent = ip
    · have hdir : (t ip).type = .dir := by
        rcases h.parents hup' d hd with hp | hp | hp
        · exact absurd hp hself
        · rw [← hpi, hp]
          exact h.root
        · rw [← hpi]
          exact hp.1
      refine absurd hpi (hup hup' hdir d hd ?_)
      rintro rfl
      exact hself hpi
    · rw [if_neg hpi] at h1
      omega

end Tree

/-! ### Inodes come and go -/

namespace Tree

variable {i : ℕ} (h : Tree sb up extra t)
include h

theorem create {x : Inode} (hfree : (t i).type = .free)
    (hi : 0 < i ∧ i < sb.ninodes) (hextra : extra i = 0) (hlink : x.nlink = 1)
    (hdir : x.type = .dir → ∃ par, par ≠ 0 ∧ x.entries = [⟨i, dot⟩, ⟨par, dotdot⟩] ∧
      (up → par = ROOTINO ∨ (t par).type = .dir ∧ 0 < names sb t par))
    (hroom : used sb (update t i x) ≤ sb.nblocks) :
    Tree sb up (plus extra i) (update t i x) := by
  obtain ⟨hcount, hnames⟩ := h.counted.create hfree hi hextra hlink fun hd => by
    obtain ⟨par, hpar, he, -⟩ := hdir hd
    exact ⟨par, hpar, he⟩
  refine of_counted hcount hroom ?_ (fun d hd hr hz e he => ?_) fun hup d hd => ?_
  · rw [hnames]
    exact h.top
  · rw [hnames] at hz
    by_cases hdi : d = i
    · subst hdi
      rw [update_self] at hd he
      obtain ⟨par, -, hx, -⟩ := hdir hd
      simp [hx] at he
    · rw [update_of_ne hdi] at hd he
      exact h.removed d hd hr hz e he
  · by_cases hdi : d = i
    · subst hdi
      rw [update_self] at hd ⊢
      obtain ⟨par, -, he, hpar⟩ := hdir hd
      have hp : x.parent = par := by rw [Inode.parent, he]; rfl
      rw [hp, hnames]
      refine .inr ((hpar hup).imp_right fun hpar => ?_)
      have hne : par ≠ d := by
        rintro rfl
        rw [hpar.1] at hfree
        cases hfree
      rw [update_of_ne hne]
      exact hpar
    · rw [update_of_ne hdi] at hd ⊢
      rw [hnames]
      refine (h.parents hup d hd).imp_right fun hp => hp.imp_right fun hp => ?_
      have hne : (t d).parent ≠ i := by
        intro hpi
        rw [hpi, hfree] at hp
        cases hp.1
      rw [update_of_ne hne]
      exact hp

theorem free (hlive : (t i).type ≠ .free) (hz : (t i).nlink = 0) :
    Tree sb up extra (update t i (Fs.freed (t i))) ∧
      ((t i).type = .dir → ∀ e ∈ (t i).entries.drop 2, e.inum = 0) := by
  obtain ⟨hnone, -, hroot, -⟩ := h.counted.of_nlink_eq_zero hz
  have hempty : (t i).type = .dir → ∀ e ∈ (t i).entries.drop 2, e.inum = 0 := fun hd =>
    h.removed i hd hroot hnone
  have hold : ∀ q, (t i).count q = 0 := by
    intro q
    by_cases hd : (t i).type = .dir
    · exact Inode.count_of_empty (hempty hd) q
    · exact Inode.count_of_type hd q
  obtain ⟨hcount, hnames⟩ := h.counted.free hlive hz hold
  have hdir : ∀ d, (update t i (Fs.freed (t i)) d).type = .dir → d ≠ i := by
    rintro d hd rfl
    simp [Fs.freed] at hd
  refine ⟨of_counted hcount ?_ ?_ (fun d hd hr hz => ?_) fun hup d hd => ?_, hempty⟩
  · have hused := used_update (h.inum i hlive).2 t (Fs.freed (t i))
    have hzero : blocksOf (Fs.freed (t i)).size = 0 := by
      simp [Fs.freed, Inode.size, blocksOf, BSIZE]
    have := h.room
    omega
  · rw [hnames]
    exact h.top
  · have hdi := hdir d hd
    rw [hnames] at hz
    rw [update_of_ne hdi] at hd ⊢
    exact h.removed d hd hr hz
  have hdi := hdir d hd
  rw [update_of_ne hdi] at hd ⊢
  rw [hnames]
  refine (h.parents hup d hd).imp_right fun hp => hp.imp_right fun hp => ?_
  have hne : (t d).parent ≠ i := by
    intro hpi
    rw [hpi, hnone] at hp
    omega
  rw [update_of_ne hne]
  exact hp

theorem grow {x : Inode} (ht : x.type = (t i).type) (he : x.entries = (t i).entries)
    (hl : x.nlink = (t i).nlink) (hroom : used sb (update t i x) ≤ sb.nblocks) :
    Tree sb up extra (update t i x) := by
  have ht' := update_proj (·.type) ht
  have he' := update_proj (·.entries) he
  refine h.of_shape (h.counted.of_shape ht' he' fun j => ?_) ht' he' hroom
  rw [update_proj (·.nlink) hl j]

theorem weaken : Tree sb False extra t :=
  { h with parents := fun hup => hup.elim }

end Tree

end Xv6.Sys
