import Xv6.Bio.System

namespace Xv6.Bio

open Lib
open List (count_append count_nil mem_append_left mem_append_right)
open Log (Area CommitPc)

def Io.locks : Io → List (Fin NBUF)
  | .filling _ i => [i]
  | _ => []

def Io.refs : Io → List (Fin NBUF)
  | .getting _ i => [i]
  | .filling _ i => [i]
  | .releasing i => [i]
  | _ => []

def Thread.locks (t : Thread) : List (Fin NBUF) := t.held ++ t.regs ++ t.io.locks

def Thread.refs (t : Thread) : List (Fin NBUF) := t.held ++ t.regs ++ t.io.refs

def Io.Asked (io : Io) (b : ℕ) (i : Fin NBUF) : Prop := io = .getting b i ∨ io = .filling b i

structure Owned {P : Type} [DecidableEq P] [Fintype P] (s : State P) : Prop where
  complete : ∀ i, i ∈ s.cache.order
  refs : ∀ i, ((s.cache.buf i).refcnt : ℤ) = ∑ p, ((s.thr p).refs.count i : ℤ)
  locks : ∀ p i, (s.thr p).locks.count i = if (s.cache.buf i).owner = some p then 1 else 0
  unique : ∀ i j b, s.cache.Caches i ROOTDEV b → s.cache.Caches j ROOTDEV b → i = j
  used : ∀ i, 0 < (s.cache.buf i).refcnt → (s.cache.buf i).dev = ROOTDEV
  asked : ∀ p b i, (s.thr p).io.Asked b i → (s.cache.buf i).blockno = b

structure Cache.SameUse {P : Type} (c c' : Cache P) : Prop where
  order : c'.order = c.order
  dev : ∀ i, (c'.buf i).dev = (c.buf i).dev
  blockno : ∀ i, (c'.buf i).blockno = (c.buf i).blockno
  refcnt : ∀ i, (c'.buf i).refcnt = (c.buf i).refcnt
  owner : ∀ i, (c'.buf i).owner = (c.buf i).owner

variable {P : Type}

theorem Cache.SameUse.refl (c : Cache P) : c.SameUse c :=
  ⟨rfl, fun _ => rfl, fun _ => rfl, fun _ => rfl, fun _ => rfl⟩

theorem Cache.SameUse.set (c : Cache P) (i : Fin NBUF) (b : Buf P) (hdev : b.dev = (c.buf i).dev)
    (hblk : b.blockno = (c.buf i).blockno) (href : b.refcnt = (c.buf i).refcnt)
    (hown : b.owner = (c.buf i).owner) : c.SameUse (c.set i b) where
  order := rfl
  dev := forall_set (Q := fun j x => x.dev = (c.buf j).dev) hdev fun _ _ => rfl
  blockno := forall_set (Q := fun j x => x.blockno = (c.buf j).blockno) hblk fun _ _ => rfl
  refcnt := forall_set (Q := fun j x => x.refcnt = (c.buf j).refcnt) href fun _ _ => rfl
  owner := forall_set (Q := fun j x => x.owner = (c.buf j).owner) hown fun _ _ => rfl

theorem Cache.SameUse.caches {c c' : Cache P} (h : c.SameUse c') (i : Fin NBUF) (dev b : ℕ) :
    c'.Caches i dev b ↔ c.Caches i dev b := caches_congr (h.dev i) (h.blockno i) dev b

section
variable {P : Type} [DecidableEq P]

@[simp] theorem setThr_self (s : State P) (p : P) (t : Thread) : (s.setThr p t).thr p = t :=
  Function.update_self ..

variable {p : P}

theorem setThr_of_ne (s : State P) {q : P} (t : Thread) (h : q ≠ p) :
    (s.setThr p t).thr q = s.thr q := Function.update_of_ne h ..

theorem forall_setThr {s : State P} {t : Thread} {Q : P → Thread → Prop} (hp : Q p t)
    (hq : ∀ q, q ≠ p → Q q (s.thr q)) (q : P) : Q q ((s.setThr p t).thr q) := by
  by_cases h : q = p
  · subst h
    rwa [setThr_self]
  · rw [setThr_of_ne s t h]
    exact hq q h

theorem setThr_unlogged {s s' : State P} {t : Thread} (hthr : s'.thr = s.thr)
    (ht : t.unlogged = (s.thr p).unlogged) (q : P) :
    ((s'.setThr p t).thr q).unlogged = (s.thr q).unlogged := by
  refine forall_setThr (Q := fun q t => t.unlogged = (s.thr q).unlogged) ht ?_ q
  intro q _
  rw [hthr]

variable {i : Fin NBUF} {c c' : Cache P}

theorem iderw_sameUse (h : c.iderw p i = .ok c') : c.SameUse c' := by
  unfold Cache.iderw at h
  split at h
  · cases h
  split at h
  · cases h
  split at h <;> cases h
  · have hs := Cache.SameUse.set c i { c.buf i with dirty := false, valid := true } rfl rfl rfl rfl
    exact ⟨hs.order, hs.dev, hs.blockno, hs.refcnt, hs.owner⟩
  · exact .set _ _ _ rfl rfl rfl rfl

theorem fill_sameUse (h : c.fill p i = .ok c') : c.SameUse c' := by
  unfold Cache.fill at h
  split at h
  · cases h
    exact .refl _
  · exact iderw_sameUse h

theorem bwrite_sameUse (h : c.bwrite p i = .ok c') : c.SameUse c' := by
  rw [bwrite_eq_ok h]
  have hs := Cache.SameUse.set c i { c.buf i with dirty := false, valid := true } rfl rfl rfl rfl
  exact ⟨hs.order, hs.dev, hs.blockno, hs.refcnt, hs.owner⟩

end

variable {P : Type} [DecidableEq P] [Fintype P] {s : State P} {p : P} {i : Fin NBUF}

theorem Owned.owner_of_mem (h : Owned s) (hi : i ∈ (s.thr p).locks) :
    (s.cache.buf i).owner = some p := by
  have hc := h.locks p i
  have hpos := List.count_pos_iff.2 hi
  by_contra ho
  rw [if_neg ho] at hc
  omega

theorem Owned.refcnt_pos (h : Owned s) (hi : i ∈ (s.thr p).refs) : 0 < (s.cache.buf i).refcnt := by
  have hle := Finset.single_le_sum (f := fun q => ((s.thr q).refs.count i : ℤ))
    (fun q _ => Int.natCast_nonneg _) (Finset.mem_univ p)
  have hpos := List.count_pos_iff.2 hi
  have hsum := h.refs i
  omega

theorem Owned.dev_of_mem (h : Owned s) (hi : i ∈ (s.thr p).refs) :
    (s.cache.buf i).dev = ROOTDEV := h.used i (h.refcnt_pos hi)

variable {t : Thread}

theorem mem_refs_of_held (hi : i ∈ t.held) : i ∈ t.refs :=
  mem_append_left _ (mem_append_left _ hi)

theorem mem_refs_of_regs (hi : i ∈ t.regs) : i ∈ t.refs :=
  mem_append_left _ (mem_append_right _ hi)

variable {b : ℕ}

theorem mem_refs_of_asked (h : t.io.Asked b i) : i ∈ t.refs := by
  refine mem_append_right _ ?_
  rcases h with h | h <;> simp [h, Io.refs]

theorem mem_locks_of_held (hi : i ∈ t.held) : i ∈ t.locks :=
  mem_append_left _ (mem_append_left _ hi)

theorem mem_locks_of_regs (hi : i ∈ t.regs) : i ∈ t.locks :=
  mem_append_left _ (mem_append_right _ hi)

theorem mem_refs_of_locks (hi : i ∈ t.locks) : i ∈ t.refs := by
  rcases List.mem_append.1 hi with hi | hi
  · exact mem_append_left _ hi
  · refine mem_append_right _ ?_
    cases hio : t.io <;> simp_all [Io.locks, Io.refs]

variable {s' : State P}

theorem Owned.of_setThr (h : Owned s) (hthr : s'.thr = s.thr)
    (horder : ∀ i, i ∈ s'.cache.order)
    (hrefs : ∀ i, ((s'.cache.buf i).refcnt : ℤ)
      = (s.cache.buf i).refcnt - (s.thr p).refs.count i + t.refs.count i)
    (hlock : ∀ i, t.locks.count i = if (s'.cache.buf i).owner = some p then 1 else 0)
    (hother : ∀ i q, q ≠ p → ((s'.cache.buf i).owner = some q ↔ (s.cache.buf i).owner = some q))
    (hunique : ∀ i j b, s'.cache.Caches i ROOTDEV b → s'.cache.Caches j ROOTDEV b → i = j)
    (hused : ∀ i, 0 < (s'.cache.buf i).refcnt → (s'.cache.buf i).dev = ROOTDEV)
    (hasked : ∀ b i, t.io.Asked b i → (s'.cache.buf i).blockno = b)
    (hblk : ∀ q i, q ≠ p → i ∈ (s.thr q).refs → (s'.cache.buf i).blockno = (s.cache.buf i).blockno)
      :
    Owned (s'.setThr p t) where
  complete := horder
  refs := by
    intro i
    have hsum := sum_update s'.thr (fun t => (t.refs.count i : ℤ)) p t
    rw [hthr, ← h.refs i, ← hrefs i, ← hthr] at hsum
    exact hsum.symm
  locks := by
    refine forall_setThr (Q := fun q t => ∀ i, t.locks.count i =
      if (s'.cache.buf i).owner = some q then 1 else 0) hlock ?_
    intro q hq i
    rw [hthr, h.locks q i]
    simp only [hother i q hq]
  unique := hunique
  used := hused
  asked := by
    refine forall_setThr (Q := fun _ t => ∀ b i, t.io.Asked b i →
      (s'.cache.buf i).blockno = b) hasked ?_
    intro q hq b i ha
    rw [hthr] at ha
    rw [hblk q i hq (mem_refs_of_asked ha)]
    exact h.asked q b i ha

theorem Owned.of_sameUse (h : Owned s) (hthr : s'.thr = s.thr)
    (hc : s.cache.SameUse s'.cache) (hrefs : ∀ i, t.refs.count i = (s.thr p).refs.count i)
    (hlocks : ∀ i, t.locks.count i = (s.thr p).locks.count i)
    (hasked : ∀ b i, t.io.Asked b i → (s.thr p).io.Asked b i) : Owned (s'.setThr p t) := by
  refine h.of_setThr hthr ?_ ?_ ?_ ?_ ?_ ?_ ?_ ?_
  · rw [hc.order]
    exact h.complete
  · intro i
    rw [hc.refcnt, hrefs]
    omega
  · intro i
    rw [hc.owner, hlocks]
    exact h.locks p i
  · intro i q _
    rw [hc.owner]
  · intro i j b hi hj
    exact h.unique i j b ((hc.caches ..).1 hi) ((hc.caches ..).1 hj)
  · intro i
    rw [hc.refcnt, hc.dev]
    exact h.used i
  · intro b i ha
    rw [hc.blockno]
    exact h.asked p b i (hasked b i ha)
  · intro q i _ _
    exact hc.blockno i

theorem count_refs (t : Thread) (i : Fin NBUF) :
    t.refs.count i = t.held.count i + t.regs.count i + t.io.refs.count i := by
  rw [Thread.refs, count_append, count_append]

theorem count_locks (t : Thread) (i : Fin NBUF) :
    t.locks.count i = t.held.count i + t.regs.count i + t.io.locks.count i := by
  rw [Thread.locks, count_append, count_append]

variable {c : Cache P}

theorem Owned.of_set (h : Owned s) {x : Buf P} (hbuf : c.buf = (s.cache.set i x).buf)
    (horder : ∀ j, j ∈ c.order)
    (hrefs : (x.refcnt : ℤ) = (s.cache.buf i).refcnt - (s.thr p).refs.count i + t.refs.count i)
    (hlock : t.locks.count i = if x.owner = some p then 1 else 0)
    (hrest : ∀ j, j ≠ i → t.refs.count j = (s.thr p).refs.count j ∧
      t.locks.count j = (s.thr p).locks.count j)
    (hother : ∀ q, q ≠ p → (x.owner = some q ↔ (s.cache.buf i).owner = some q))
    (hid : x.blockno = (s.cache.buf i).blockno ∧ (s.cache.buf i).dev = ROOTDEV ∨
      (s.cache.buf i).refcnt = 0 ∧ ∀ j, ¬s.cache.Caches j ROOTDEV x.blockno)
    (hdev : x.dev = ROOTDEV) (hasked : ∀ b j, t.io.Asked b j → j = i ∧ x.blockno = b) :
    Owned ({ s with cache := c }.setThr p t) := by
  have hself : c.buf i = x := by rw [hbuf, buf_set_self]
  have hne : ∀ j, j ≠ i → c.buf j = s.cache.buf j := fun j hj => by
    rw [hbuf, buf_set_of_ne _ _ hj]
  have hfresh : ∀ j, j ≠ i → ¬s.cache.Caches j ROOTDEV x.blockno := by
    intro j hj hc
    rcases hid with ⟨hblk, hd⟩ | ⟨-, hno⟩
    · exact hj (h.unique j i _ hc ⟨hd, hblk.symm⟩)
    · exact hno j hc
  refine h.of_setThr (by rfl) horder ?_ ?_ ?_ ?_ ?_ ?_ ?_
  · intro j
    by_cases hj : j = i
    · subst hj
      simpa [hself] using hrefs
    · change ((c.buf j).refcnt : ℤ) = _
      rw [hne j hj, (hrest j hj).1]
      omega
  · intro j
    by_cases hj : j = i
    · subst hj
      simpa [hself] using hlock
    · change _ = if (c.buf j).owner = some p then 1 else 0
      rw [hne j hj, (hrest j hj).2]
      exact h.locks p j
  · intro j q hq
    by_cases hj : j = i
    · subst hj
      simpa [hself] using hother q hq
    · change (c.buf j).owner = some q ↔ _
      rw [hne j hj]
  · intro j k b hjb hkb
    change (c.buf j).dev = ROOTDEV ∧ (c.buf j).blockno = b at hjb
    change (c.buf k).dev = ROOTDEV ∧ (c.buf k).blockno = b at hkb
    by_cases hj : j = i
    · by_cases hk : k = i
      · rw [hj, hk]
      · subst hj
        rw [hself] at hjb
        rw [hne k hk, ← hjb.2] at hkb
        exact absurd hkb (hfresh k hk)
    · by_cases hk : k = i
      · subst hk
        rw [hself] at hkb
        rw [hne j hj, ← hkb.2] at hjb
        exact absurd hjb (hfresh j hj)
      · rw [hne j hj] at hjb
        rw [hne k hk] at hkb
        exact h.unique j k b hjb hkb
  · intro j hpos
    change (c.buf j).dev = ROOTDEV
    change 0 < (c.buf j).refcnt at hpos
    by_cases hj : j = i
    · rw [hj, hself, hdev]
    · rw [hne j hj] at hpos ⊢
      exact h.used j hpos
  · intro b j ha
    obtain ⟨rfl, hb⟩ := hasked b j ha
    change (c.buf j).blockno = b
    rw [hself, hb]
  · intro q j _ hj
    change (c.buf j).blockno = _
    by_cases hji : j = i
    · subst hji
      rw [hself]
      rcases hid with ⟨hblk, -⟩ | ⟨h0, -⟩
      · exact hblk
      · exact absurd (h.refcnt_pos hj) (by omega)
    · rw [hne j hji]

theorem Owned.get (h : Owned s) (hio : (s.thr p).io = .ready) (hb : BGet s.cache ROOTDEV b i c) :
    Owned ({ s with cache := c }.setThr p { s.thr p with io := .getting b i }) := by
  have hlocks := h.locks p i
  have hrest : ∀ j, j ≠ i →
      { s.thr p with io := .getting b i }.refs.count j = (s.thr p).refs.count j ∧
      { s.thr p with io := .getting b i }.locks.count j = (s.thr p).locks.count j := by
    intro j hj
    simp [count_refs, count_locks, hio, Io.refs, Io.locks, hj.symm]
  have hasked : ∀ b' j, (Io.getting b i).Asked b' j → j = i ∧ b = b' := by
    rintro b' j (hg | hg) <;> cases hg
    exact ⟨rfl, rfl⟩
  cases hb with
  | hit hi =>
    refine h.of_set rfl h.complete ?_ ?_ hrest (fun _ _ => .rfl) (.inl ⟨rfl, hi.1⟩) hi.1 ?_
    · simp [count_refs, hio, Io.refs]
      omega
    · rw [count_locks] at hlocks ⊢
      simpa [hio, Io.locks] using hlocks
    · intro b' j ha
      exact ⟨(hasked b' j ha).1, hi.2.trans (hasked b' j ha).2⟩
  | recycle hmiss href hd =>
    refine h.of_set rfl h.complete ?_ ?_ hrest (fun _ _ => .rfl)
      (.inr ⟨href, fun j => hmiss j (h.complete j)⟩) rfl hasked
    · simp [count_refs, hio, Io.refs, href]
      omega
    · rw [count_locks] at hlocks ⊢
      simpa [hio, Io.locks] using hlocks

theorem Owned.acquire (h : Owned s) (hio : (s.thr p).io = .getting b i)
    (ho : (s.cache.buf i).owner = none) :
    Owned ((s.setBuf i { s.cache.buf i with owner := some p }).setThr p
      { s.thr p with io := .filling b i }) := by
  have hlocks := h.locks p i
  have hdev := h.dev_of_mem (mem_refs_of_asked (.inl hio))
  refine h.of_set (c := s.cache.set i { s.cache.buf i with owner := some p }) rfl h.complete
    ?_ ?_ ?_ ?_ (.inl ⟨rfl, hdev⟩) hdev ?_
  · simp [count_refs, hio, Io.refs]
  · simp only [count_locks, hio, ho, Io.locks] at hlocks ⊢
    simpa using hlocks
  · intro j hj
    simp [count_refs, count_locks, hio, Io.refs, Io.locks, hj.symm]
  · intro q hq
    simp [ho, hq.symm]
  · rintro b' j (hg | hg) <;> cases hg
    exact ⟨rfl, h.asked p b i (.inl hio)⟩

variable {log : Area} {lh : List ℕ} {pc : Log.Pc} {t' : Thread}

section
variable (h : Drops log lh pc t i t')
include h

theorem Drops.counts (hio : t.io = .ready) (j : Fin NBUF) :
    t'.refs.count j = t.refs.count j ∧ t'.locks.count j + [i].count j = t.locks.count j := by
  have hperm : ∀ {l l' : List (Fin NBUF)}, (i :: l').Perm l →
      l'.count j + [i].count j = l.count j := by
    intro l l' hp
    rw [← hp.count_eq j, ← count_append]
    exact List.perm_append_comm.count_eq j
  cases h with
  | user _ hi _ =>
    have hc := hperm (List.perm_cons_erase hi).symm
    simp only [count_refs, count_locks, hio, Io.refs, Io.locks, count_nil]
    omega
  | commit c r _ _ hr =>
    obtain ⟨hlt, rfl⟩ := List.getElem?_eq_some_iff.1 hr
    have hc := hperm (List.getElem_cons_eraseIdx_perm hlt)
    simp only [count_refs, count_locks, hio, Io.refs, Io.locks, count_nil]
    omega

theorem Drops.io_eq : t'.io = .releasing i := by
  cases h <;> rfl

theorem Drops.mem_locks : i ∈ t.locks := by
  cases h with
  | user _ hi _ => exact mem_locks_of_held hi
  | commit c r _ _ hr => exact mem_locks_of_regs (List.mem_of_getElem? hr)

end

variable (h : Owned s)
include h

theorem Owned.unlock (hio : (s.thr p).io = .ready)
    (hd : Drops log s.log.lh (s.log.pc p) (s.thr p) i t) (ho : (s.cache.buf i).owner = some p) :
    Owned ((s.setBuf i { s.cache.buf i with owner := none }).setThr p t) := by
  have hlocks := h.locks p i
  have hc := hd.counts hio
  have hdev := h.dev_of_mem (mem_refs_of_locks hd.mem_locks)
  refine h.of_set (c := s.cache.set i { s.cache.buf i with owner := none }) rfl h.complete
    ?_ ?_ ?_ ?_ (.inl ⟨rfl, hdev⟩) hdev ?_
  · rw [(hc i).1]
    simp
  · have hi := (hc i).2
    rw [hlocks, if_pos ho, List.count_singleton_self] at hi
    simpa using hi
  · intro j hj
    have hji := hc j
    rw [List.count_singleton, beq_false_of_ne hj.symm] at hji
    simpa using hji
  · intro q hq
    simp [ho, hq.symm]
  · rintro b j (hg | hg) <;> simp [hd.io_eq] at hg

theorem Owned.unref (hio : (s.thr p).io = .releasing i) :
    Owned ({ s with cache := s.cache.unref i }.setThr p { s.thr p with io := .ready }) := by
  have hlocks := h.locks p i
  have hmem : i ∈ (s.thr p).refs := by
    refine mem_append_right _ ?_
    simp [hio, Io.refs]
  have hpos := h.refcnt_pos hmem
  have hdev := h.dev_of_mem hmem
  refine h.of_set (unref_buf s.cache i) (fun j => mem_order_unref (h.complete j)) ?_ ?_ ?_
    (fun _ _ => .rfl) (.inl ⟨rfl, hdev⟩) hdev ?_
  · simp only [count_refs, hio, Io.refs, List.count_singleton_self, count_nil]
    omega
  · rw [count_locks] at hlocks ⊢
    simpa [hio, Io.locks] using hlocks
  · intro j hj
    simp [count_refs, count_locks, hio, Io.refs, Io.locks, hj.symm]
  · rintro b j (hg | hg) <;> cases hg

theorem Owned.fill (hio : (s.thr p).io = .filling b i) (hc : s.cache.SameUse c) :
    Owned ({ s with cache := c }.setThr p ((s.thr p).keep (s.log.pc p) i)) := by
  have hready : ((s.thr p).keep (s.log.pc p) i).io = .ready := by
    unfold Thread.keep
    split <;> rfl
  refine h.of_sameUse (by rfl) hc ?_ ?_ ?_
  · intro j
    rw [count_refs, count_refs, hio, hready]
    unfold Thread.keep
    split <;> simp only [Io.refs, count_append, count_nil] <;> omega
  · intro j
    rw [count_locks, count_locks, hio, hready]
    unfold Thread.keep
    split <;> simp only [Io.locks, count_append, count_nil] <;> omega
  · rintro b j (hg | hg) <;> simp [hready] at hg

theorem Owned.still (hthr : s'.thr = s.thr) (hc : s.cache.SameUse s'.cache)
    (hheld : t.held = (s.thr p).held) (hregs : t.regs = (s.thr p).regs) (hrefs : t.io.refs = [])
    (hrefs' : (s.thr p).io.refs = []) : Owned (s'.setThr p t) := by
  have hnil : ∀ {io : Io}, io.refs = [] → io.locks = [] ∧ ∀ b j, ¬io.Asked b j := by
    intro io hio
    cases io <;> simp_all [Io.refs, Io.locks, Io.Asked]
  refine h.of_sameUse hthr hc ?_ ?_ ?_
  · intro i
    rw [count_refs, count_refs, hheld, hregs, hrefs, hrefs']
  · intro i
    rw [count_locks, count_locks, hheld, hregs, (hnil hrefs).1, (hnil hrefs').1]
  · intro b i ha
    exact absurd ha ((hnil hrefs).2 b i)

theorem Owned.move {t : State P} (hm : Move log s p t) : Owned t := by
  have hready : (s.thr p).io = .ready → (s.thr p).io.refs = [] := by
    intro hio
    rw [hio]
    rfl
  cases hm with
  | panic e => exact ⟨h.complete, h.refs, h.locks, h.unique, h.used, h.asked⟩
  | get b i c hio ha hb => exact h.get hio hb
  | acquire b i hio ho => exact h.acquire hio ho
  | fill b i c hio hc => exact h.fill hio (fill_sameUse hc)
  | unlock i t hio hdr ho => exact h.unlock hio hdr ho
  | unref i hio => exact h.unref hio
  | store i data e w hio hpc hi =>
    exact h.still (by rfl) (by exact .set _ _ _ rfl rfl rfl rfl) (by rfl) (by rfl)
      (hready hio) (hready hio)
  | test i l e w hio hpc hi hl =>
    refine h.still (by rfl) (by exact .refl _) (by rfl) (by rfl) ?_ (hready hio)
    simp only
    split <;> rfl
  | append i l hio hl =>
    refine h.still (by rfl) (by exact .set _ _ _ rfl rfl rfl rfl) (by rfl) (by rfl) (by rfl) ?_
    rw [hio]
    rfl
  | logStep a l hio hc ht hu ha hl =>
    exact h.still (by rfl) (by exact .refl _) (by rfl) (by rfl) (hready hio) (hready hio)
  | copy c ins i data hio hpc hins hcopy =>
    exact h.still (by rfl) (by exact .set _ _ _ rfl rfl rfl rfl) (by rfl) (by rfl)
      (hready hio) (hready hio)
  | bwrite c r i cache hio hpc hins hr hw =>
    exact h.still (by rfl) (by exact bwrite_sameUse hw) (by rfl) (by rfl) (hready hio) (hready hio)
  | commit c l hio hpc hnone hl =>
    exact h.still (by rfl) (by exact .refl _) (by rfl) (by rfl) (hready hio) (hready hio)

end Xv6.Bio
