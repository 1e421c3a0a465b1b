import Xv6.Sys.Steps
import Xv6.Sys.Tree

/-!
The state while one call runs and no other process is inside a call.

The reference counts cover the current directories, the open files, and
the references that the running call has. An inode that has no links but
is still allocated is in use; the last `iput` frees it. Its copy in the
inode cache is valid, which is what `iput` needs to see that. An inode
that is free on disk is not valid in the cache, which is what `ilock`
needs to see that.
-/

namespace Xv6.Sys

open Lib Function

variable {P : Type} [Fintype P] {sb : Super} {up : Prop} {extra held : ℕ → ℕ} {s s' : Fs P}
  {i : ℕ}

structure Orderly (sb : Super) (up : Prop) (extra held : ℕ → ℕ) (s : Fs P) : Prop where
  tree : Tree sb up extra s.inode
  count : ∀ i, i ≠ 0 → ∑ p, (if s.cwd p = i then 1 else 0) + s.openCount i + held i ≤ s.ref i
  cwd : ∀ p, s.cwd p ≠ 0 → (s.inode (s.cwd p)).type = .dir
  opened : ∀ f, (s.file f).type = .inode → (s.inode (s.file f).ip).type ≠ .free ∧
    ((s.file f).writable = true → (s.inode (s.file f).ip).type ≠ .dir)
  zombie : ∀ i, (s.inode i).type ≠ .free → (s.inode i).nlink = 0 →
    s.valid i = true ∧ 0 < s.ref i
  stale : ∀ i, (s.inode i).type = .free → s.valid i = false ∨ s.ref i = 0
  clean : ∀ i x, Event.free i x ∈ s.hist → x.type = .dir → ∀ e ∈ x.entries, e.inum ≠ 0 →
    e.name = dot ∨ e.name = dotdot

structure Quiet (s s' : Fs P) : Prop where
  inode : s'.inode = s.inode
  file : s'.file = s.file
  cwd : s'.cwd = s.cwd
  hist : s'.hist = s.hist

structure Made (s s' : Fs P) (i : ℕ) (x : Inode) : Prop where
  inode : s'.inode = update s.inode i x
  ref : ∀ j, s'.ref j = s.ref j + if j = i then 1 else 0
  valid : ∀ j, j ≠ i → s'.valid j = s.valid j
  file : s'.file = s.file
  cwd : s'.cwd = s.cwd
  hist : s'.hist = .alloc i :: s.hist

omit [Fintype P] in
theorem Quiet.trans {s t u : Fs P} (h1 : Quiet s t) (h2 : Quiet t u) : Quiet s u :=
  ⟨h2.inode.trans h1.inode, h2.file.trans h1.file, h2.cwd.trans h1.cwd,
    h2.hist.trans h1.hist⟩

omit [Fintype P] in
theorem quiet_iget (s : Fs P) (i : ℕ) : Quiet s (s.iget i) := by
  unfold Fs.iget
  split <;> exact ⟨rfl, rfl, rfl, rfl⟩

namespace Orderly

variable {held' : ℕ → ℕ}

section
variable (h : Orderly sb up extra held s)
include h

theorem quiet (hq : Quiet s s')
    (hcount : ∀ i, i ≠ 0 → held' i + s.ref i ≤ held i + s'.ref i)
    (hzombie : ∀ i, (s.inode i).type ≠ .free → (s.inode i).nlink = 0 → s.valid i = true →
      0 < s.ref i → s'.valid i = true ∧ 0 < s'.ref i)
    (hstale : ∀ i, (s.inode i).type = .free → s.valid i = false ∨ s.ref i = 0 → s'.valid i = false ∨
      s'.ref i = 0) :
    Orderly sb up extra held' s' where
  tree := by
    rw [hq.inode]
    exact h.tree
  count i hi := by
    have h1 := h.count i hi
    have h2 := hcount i hi
    simp only [Fs.openCount, hq.file, hq.cwd] at h1 ⊢
    omega
  cwd p hp := by
    rw [hq.cwd] at hp ⊢
    rw [hq.inode]
    exact h.cwd p hp
  opened f hf := by
    rw [hq.file] at hf ⊢
    rw [hq.inode]
    exact h.opened f hf
  zombie i hi hz := by
    rw [hq.inode] at hi hz
    obtain ⟨hv, hr⟩ := h.zombie i hi hz
    exact hzombie i hi hz hv hr
  stale i hi := by
    rw [hq.inode] at hi
    exact hstale i hi (h.stale i hi)
  clean i x hx := by
    rw [hq.hist] at hx
    exact h.clean i x hx

theorem iget (i : ℕ) : Orderly sb up extra (plus held i) (s.iget i) := by
  have hvalid : ∀ j, (s.iget i).valid j = if j = i ∧ s.ref i = 0 then false else s.valid j := by
    intro j
    unfold Fs.iget
    by_cases hr : 0 < s.ref i
    · simp [hr, Nat.pos_iff_ne_zero.1 hr]
    · by_cases hj : j = i
      · subst hj
        simp [Nat.eq_zero_of_not_pos hr]
      · simp [hr, hj]
  refine h.quiet (quiet_iget s i) (fun j _ => ?_) (fun j _ _ hv hr => ?_) fun j _ hs => ?_
  · rw [Fs.iget_ref, plus]
    omega
  · rw [hvalid, Fs.iget_ref, if_neg]
    · exact ⟨hv, by omega⟩
    · rintro ⟨rfl, hz⟩
      omega
  rw [hvalid, Fs.iget_ref]
  by_cases hji : j = i
  · subst hji
    rcases hs with hs | hs
    · left
      split
      · rfl
      · exact hs
    · simp [hs]
  · simpa [hji] using hs

theorem load (hi : (s.inode i).type ≠ .free) : Orderly sb up extra held (s.load i) := by
  refine h.quiet ⟨rfl, rfl, rfl, rfl⟩ (fun _ _ => le_rfl) (fun j _ _ hv hr => ⟨?_, hr⟩)
    fun j hj hs => ?_
  · by_cases hji : j = i
    · simp [Fs.load, hji]
    · simpa [Fs.load, hji] using hv
  · have hji : j ≠ i := by
      rintro rfl
      exact hi hj
    simpa [Fs.load, hji] using hs

end

theorem drop (h : Orderly sb up extra (plus held i) s) (hdead : s.dead i = false) :
    Orderly sb up extra held (s.drop i) := by
  refine h.quiet ⟨rfl, rfl, rfl, rfl⟩ (fun j hj => ?_) (fun j _ hz hv hr => ⟨hv, ?_⟩)
    fun j _ hs => ?_
  · have hc := h.count j hj
    by_cases hji : j = i
    · subst hji
      simp only [Fs.drop, plus, ↓reduceIte, update_self] at hc ⊢
      omega
    · simp [Fs.drop, plus, hji]
  · by_cases hji : j = i
    · subst hji
      simp only [Fs.dead, hv, hz, decide_true, Bool.true_and, decide_eq_false_iff_not] at hdead
      simp only [Fs.drop, update_self]
      omega
    · simpa [Fs.drop, hji] using hr
  · by_cases hji : j = i
    · subst hji
      refine hs.imp_right fun hs => ?_
      simp [Fs.drop, hs]
    · simpa [Fs.drop, hji] using hs

theorem put (h : Orderly sb up extra (plus held i) s) (hi : (s.inode i).type ≠ .free) :
    Orderly sb up extra held ((s.reap i).drop i) := by
  by_cases hdead : s.dead i = true
  · have hz : (s.inode i).nlink = 0 := by
      simp only [Fs.dead, Bool.and_eq_true, decide_eq_true_eq] at hdead
      exact hdead.1.2
    have href := Fs.ref_of_dead hdead
    obtain ⟨htree, hempty⟩ := h.tree.free hi hz
    have hpos := (h.tree.inum i hi).1
    have hcount := h.count i (by omega)
    rw [href, plus, if_pos rfl] at hcount
    have hopen : s.openCount i = 0 := by omega
    have hcwd : ∀ p, s.cwd p ≠ i := by
      intro p hp
      have := Finset.single_le_sum (f := fun p => if s.cwd p = i then 1 else 0)
        (fun _ _ => Nat.zero_le _) (Finset.mem_univ p)
      simp only [hp, ↓reduceIte] at this
      omega
    have hinode : ((s.reap i).drop i).inode = update s.inode i (Fs.freed (s.inode i)) := by
      simp [Fs.reap, hdead, Fs.drop]
    have hvalid : ((s.reap i).drop i).valid = update s.valid i false := by
      simp [Fs.reap, hdead, Fs.drop]
    have hdrop : ((s.reap i).drop i).ref = update s.ref i (s.ref i - 1) := by
      simp [Fs.drop]
    have hfile : ((s.reap i).drop i).file = s.file := by simp [Fs.drop]
    have hcwd' : ((s.reap i).drop i).cwd = s.cwd := by simp [Fs.drop]
    refine ⟨?_, fun j hj => ?_, fun p hp => ?_, fun f hf => ?_, fun j hj hjz => ?_, fun j hj => ?_,
      fun j x hx hd => ?_⟩
    · rw [hinode]
      exact htree
    · have hc := h.count j hj
      simp only [Fs.openCount, hfile, hcwd', hdrop] at hc ⊢
      by_cases hji : j = i
      · subst hji
        simp only [plus, ↓reduceIte, update_self] at hc ⊢
        omega
      · simpa [plus, hji] using hc
    · rw [hcwd'] at hp ⊢
      rw [hinode, update_of_ne (hcwd p)]
      exact h.cwd p hp
    · rw [hfile] at hf ⊢
      rw [hinode, update_of_ne (Fs.ip_ne_of_openCount hopen hf)]
      exact h.opened f hf
    · have hji : j ≠ i := by
        rintro rfl
        simp [hinode, Fs.freed] at hj
      rw [hinode, update_of_ne hji] at hj hjz
      rw [hvalid, hdrop, update_of_ne hji, update_of_ne hji]
      exact h.zombie j hj hjz
    · by_cases hji : j = i
      · subst hji
        left
        rw [hvalid, update_self]
      · rw [hinode, update_of_ne hji] at hj
        rw [hvalid, hdrop, update_of_ne hji, update_of_ne hji]
        exact h.stale j hj
    · have hhist : ((s.reap i).drop i).hist = .free i (s.inode i) :: s.hist := by
        simp [Fs.reap, hdead, Fs.drop]
      rw [hhist] at hx
      rcases List.mem_cons.1 hx with hx | hx
      · cases hx
        exact fun e he hz => h.tree.dots_of_empty hd (hempty hd) he hz
      · exact h.clean j x hx hd
  · rw [Bool.not_eq_true] at hdead
    rw [Fs.reap_of_not_dead hdead]
    exact h.drop hdead

theorem not_dead_iget (h : Orderly sb up extra held s) (i : ℕ) : (s.iget i).dead i = false := by
  by_contra hdead
  rw [Bool.not_eq_false] at hdead
  have hh := h.iget i
  have hq := quiet_iget s i
  simp only [Fs.dead, Bool.and_eq_true, decide_eq_true_eq, hq.inode] at hdead
  obtain ⟨⟨hv, hz⟩, hr⟩ := hdead
  rw [Fs.iget_ref, if_pos rfl] at hr
  by_cases hi : (s.inode i).type = .free
  · rcases hh.stale i (by rwa [hq.inode]) with hs | hs
    · rw [hs] at hv
      cases hv
    · rw [Fs.iget_ref, if_pos rfl] at hs
      omega
  · have := (h.zombie i hi hz).2
    omega

variable {extra' : ℕ → ℕ}

theorem table {t : Table} (h : Orderly sb up extra held s) (htree : Tree sb up extra' t)
    (htype : ∀ i, (t i).type = (s.inode i).type)
    (hzombie : ∀ i, (t i).type ≠ .free → (t i).nlink = 0 → (s.inode i).nlink ≠ 0 →
      s.valid i = true ∧ 0 < s.ref i) :
    Orderly sb up extra' held { s with inode := t } where
  tree := htree
  count := h.count
  cwd p hp := (htype _).trans (h.cwd p hp)
  opened f hf := by
    simp only [htype]
    exact h.opened f hf
  zombie i hi hz := by
    by_cases hold : (s.inode i).nlink = 0
    · exact h.zombie i (htype i ▸ hi) hold
    · exact hzombie i hi hz hold
  stale i hi := h.stale i (htype i ▸ hi)
  clean := h.clean

theorem addLink (h : Orderly sb up extra held s) (i : ℕ) (hx : extra i ≤ 2) :
    Orderly sb up (plus extra i) held (s.addLink i 1) := by
  have htree := h.tree.addLink i hx
  refine h.table htree (update_proj (·.type) (by rfl)) fun j _ hz hold => ?_
  by_cases hj : j = i
  · subst hj
    have := (htree.counted.of_nlink_eq_zero hz).2.2.2
    simp [plus] at this
  · rw [update_of_ne hj] at hz
    exact absurd hz hold

theorem subLink (h : Orderly sb up (plus extra i) held s) (hv : s.valid i = true)
    (hr : 0 < s.ref i) : Orderly sb up extra held (s.addLink i (-1)) := by
  refine h.table h.tree.subLink (update_proj (·.type) (by rfl)) fun j _ hz hold => ?_
  by_cases hj : j = i
  · exact hj ▸ ⟨hv, hr⟩
  · rw [update_of_ne hj] at hz
    exact absurd hz hold

variable (h : Orderly sb up extra held s)
include h

theorem writeEntry {dp n : ℕ} {e : Dirent} (htree : Tree sb up extra' (storeEntry s.inode dp n e)) :
    Orderly sb up extra' held (s.writeEntry dp n e) := by
  refine h.table htree storeEntry_type fun j _ hz hold => absurd ?_ hold
  rw [← storeEntry_nlink]
  exact hz

theorem made {x : Inode} (hfree : (s.inode i).type = .free)
    (hx : x.type ≠ .free) (hlink : x.nlink ≠ 0) (htree : Tree sb up extra' (update s.inode i x))
    (hm : Made s s' i x) : Orderly sb up extra' (plus held i) s' where
  tree := hm.inode ▸ htree
  count j hj := by
    have := h.count j hj
    simp only [Fs.openCount, hm.file, hm.cwd, hm.ref, plus] at this ⊢
    omega
  cwd p hp := by
    rw [hm.cwd] at hp ⊢
    have hdir := h.cwd p hp
    have hne : s.cwd p ≠ i := by
      rintro rfl
      rw [hdir] at hfree
      cases hfree
    rw [hm.inode, update_of_ne hne]
    exact hdir
  opened f hf := by
    rw [hm.file] at hf ⊢
    have hop := h.opened f hf
    have hne : (s.file f).ip ≠ i := by
      rintro rfl
      exact hop.1 hfree
    rw [hm.inode, update_of_ne hne]
    exact hop
  zombie j hj hz := by
    have hji : j ≠ i := by
      rintro rfl
      rw [hm.inode, update_self] at hz
      exact hlink hz
    rw [hm.inode, update_of_ne hji] at hj hz
    rw [hm.valid j hji, hm.ref, if_neg hji]
    exact h.zombie j hj hz
  stale j hj := by
    have hji : j ≠ i := by
      rintro rfl
      rw [hm.inode, update_self] at hj
      exact hx hj
    rw [hm.inode, update_of_ne hji] at hj
    rw [hm.valid j hji, hm.ref, if_neg hji]
    exact h.stale j hj
  clean j x hx := by
    rw [hm.hist] at hx
    rcases List.mem_cons.1 hx with hx | hx
    · cases hx
    · exact h.clean j x hx

theorem setFile {f : Fin NFILE} {x : File}
    (hopen : x.type = .inode → (s.inode x.ip).type ≠ .free ∧ (x.writable = true →
      (s.inode x.ip).type ≠ .dir))
    (hcount : ∀ i, i ≠ 0 → held' i + (if x.type = .inode ∧ x.ip = i then 1 else 0)
      ≤ held i + if (s.file f).type = .inode ∧ (s.file f).ip = i then 1 else 0) :
    Orderly sb up extra held' (s.setFile f x) where
  tree := h.tree
  count i hi := by
    have h1 := h.count i hi
    have h2 := s.openCount_setFile f x i
    have h3 := hcount i hi
    show ∑ p, (if s.cwd p = i then 1 else 0) + _ + _ ≤ s.ref i
    omega
  cwd := h.cwd
  opened := Fs.setFile_cases hopen fun g _ => h.opened g
  zombie := h.zombie
  stale := h.stale
  clean := h.clean

theorem setCwd [DecidableEq P] {p : P} {ip : ℕ}
    (hip : ip ≠ 0 → (s.inode ip).type = .dir)
    (hcount : ∀ i, i ≠ 0 → held' i + (if ip = i then 1 else 0)
      ≤ held i + if s.cwd p = i then 1 else 0) :
    Orderly sb up extra held' (s.setCwd p ip) where
  tree := h.tree
  count i hi := by
    have h1 := h.count i hi
    have h2 := sum_update_add s.cwd (fun j => if j = i then 1 else 0) p ip
    have h3 := hcount i hi
    show ∑ q, (if update s.cwd p ip q = i then 1 else 0) + s.openCount i + _ ≤ s.ref i
    omega
  cwd q hq := by
    simp only [Fs.setCwd] at hq ⊢
    by_cases hqp : q = p
    · subst hqp
      rw [update_self] at hq ⊢
      exact hip hq
    · rw [update_of_ne hqp] at hq ⊢
      exact h.cwd q hq
  opened := h.opened
  zombie := h.zombie
  stale := h.stale
  clean := h.clean

end Orderly

end Xv6.Sys
