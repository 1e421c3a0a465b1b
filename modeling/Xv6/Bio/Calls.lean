import Xv6.Bio.Invariant

namespace Xv6.Bio

open Lib Function
open Log (Area CommitPc)

variable {P : Type} {log : Area} {s : State P} {p : P} {i : Fin NBUF}

variable {b : ℕ}

theorem BGet.view {c c' : Cache P} {dev : ℕ} (h : BGet c dev b i c') (j : Fin NBUF) :
    (c.buf j).SameView (c'.buf j) ∨ (c'.buf j).valid = false ∧ (c'.buf j).dirty = false ∧
      (c.buf j).refcnt = 0 ∧ (c.buf j).dirty = false := by
  cases h with
  | hit hc =>
    left
    exact sameView_set (by exact ⟨rfl, rfl, rfl, rfl, rfl⟩) j
  | recycle hmiss href hd =>
    by_cases hj : j = i
    · subst hj
      right
      simp [href, hd]
    · left
      rw [buf_set_of_ne _ _ hj]
      exact .refl _

theorem BGet.disk_eq {c c' : Cache P} {dev : ℕ} (h : BGet c dev b i c') : c'.disk = c.disk := by
  cases h <;> rfl

variable {c : Cache P}

theorem BGet.clean (h : BGet s.cache ROOTDEV b i c) (hs : Shared log s)
    (hb : b ∉ s.pinned) : (s.cache.buf i).dirty = false := by
  cases h with
  | hit hc =>
    by_contra hd
    rw [Bool.not_eq_false] at hd
    exact hb (hc.2 ▸ (hs.dirty i hd).2.2)
  | recycle _ _ hd => exact hd

theorem Shared.notMem_pinned (h : Shared log s) (hb : ¬log.Home b) : b ∉ s.pinned :=
  fun hmem => hb (h.homes b (List.mem_of_mem_drop hmem))

variable {t : Thread}

theorem Stage.fits_of_get {c : CommitPc} {cache : Cache P} (h : Stage log s t c) (hs : Shared log s)
    (hn : s.log.lh.Nodup) (hsize : LOGSIZE ≤ log.size)
    (hins : (body log s.log.lh c)[t.line]? = some (.bread b)) (hg : BGet s.cache ROOTDEV b i cache)
      :
    s.log.lh.length < LOGSIZE := by
  rcases h.fits with ⟨rfl | rfl, hline, -⟩ | hlt
  · simp [body] at hins
  · have hb : b = log.start + 0 + 1 := by
      rcases body_eq_some hins with ⟨tail, d, hc, -, hbody⟩ | ⟨tail, d, hc, -⟩ | ⟨hc | hc, -⟩
      · cases hc
        rw [hbody, hline] at hins
        simpa [eq_comm] using hins
      all_goals cases hc
    have hhome : ¬log.Home b := by
      simp only [LOGSIZE, MAXOPBLOCKS] at hsize
      simp only [Area.Home, hb]
      omega
    have hlt := hs.length_pinned_lt hn (hg.clean hs (hs.notMem_pinned hhome))
    have hinst : s.installed = 0 := h.point.1
    rwa [State.pinned, hinst] at hlt
  · exact hlt

variable {s' : State P}

theorem Shared.append (h : Shared log s) (hinst : s.installed = 0)
    (hinst' : s'.installed = s.installed)
    (hlh : s'.log.lh = Log.absorb s.log.lh (s.cache.buf i).blockno)
    (hdisk : s'.cache.disk = s.cache.disk) (hstored : s'.stored = s.stored)
    (hself : s'.cache.buf i = { s.cache.buf i with dirty := true })
    (hother : ∀ j, j ≠ i → s'.cache.buf j = s.cache.buf j) (hdev : (s.cache.buf i).dev = ROOTDEV)
    (hv : (s.cache.buf i).valid = true) (hh : log.Home (s.cache.buf i).blockno)
    (hun : ∀ q j, j ∈ (s.thr q).unlogged → j = i ∨ j ∈ (s'.thr q).unlogged)
    (hw : ∀ q j, ¬Writing log s q j) : Shared log s' := by
  have hpin : s.pinned = s.log.lh := by rw [State.pinned, hinst, List.drop_zero]
  have hpin' : s'.pinned = Log.absorb s.log.lh (s.cache.buf i).blockno := by
    rw [State.pinned, hlh, hinst', hinst, List.drop_zero]
  have hblk : ∀ j, (s'.cache.buf j).dev = (s.cache.buf j).dev ∧
      (s'.cache.buf j).blockno = (s.cache.buf j).blockno ∧
      (s'.cache.buf j).valid = (s.cache.buf j).valid ∧
      (s'.cache.buf j).data = (s.cache.buf j).data ∧
      ((s.cache.buf j).dirty = true → (s'.cache.buf j).dirty = true) :=
    forall_buf (Q := fun x y => y.dev = x.dev ∧ y.blockno = x.blockno ∧ y.valid = x.valid ∧
      y.data = x.data ∧ (x.dirty = true → y.dirty = true)) hself hother
      ⟨rfl, rfl, rfl, rfl, fun _ => rfl⟩ fun _ => ⟨rfl, rfl, rfl, rfl, id⟩
  have hcaches : ∀ j b, s'.cache.Caches j ROOTDEV b ↔ s.cache.Caches j ROOTDEV b :=
    fun j b => caches_congr (hblk j).1 (hblk j).2.1 ROOTDEV b
  have hdirty : (s'.cache.buf i).dirty = true := by rw [hself]
  constructor
  · intro b hb
    rw [hlh] at hb
    rcases Log.mem_absorb.1 hb with hb | rfl
    · exact h.homes b hb
    · exact hh
  · intro j
    rw [(hblk j).1, (hblk j).2.1, (hblk j).2.2.1, (hblk j).2.2.2.1, hstored]
    exact h.content j
  · intro b hb
    rw [hpin'] at hb
    rcases Log.mem_absorb.1 hb with hb | rfl
    · obtain ⟨j, hc, hd⟩ := h.pinned b (hpin ▸ hb)
      exact ⟨j, (hcaches j b).2 hc, (hblk j).2.2.2.2 hd⟩
    · exact ⟨i, (hcaches i _).2 ⟨hdev, rfl⟩, hdirty⟩
  · intro j hd
    rw [(hblk j).1, (hblk j).2.1, (hblk j).2.2.1, hpin']
    by_cases hj : j = i
    · subst hj
      exact ⟨hdev, hv, Log.mem_absorb.2 (.inr rfl)⟩
    · rw [hother j hj] at hd
      obtain ⟨hd1, hd2, hd3⟩ := h.dirty j hd
      exact ⟨hd1, hd2, Log.mem_absorb.2 (.inl (hpin ▸ hd3))⟩
  · exact fun _ => hinst'.trans hinst
  · intro b hb
    rw [hdisk, hstored]
    refine (h.fresh b hb).imp_right ?_
    rintro ⟨j, hc, hjv, hd⟩
    refine ⟨j, (hcaches j b).2 hc, (hblk j).2.2.1.trans hjv, ?_⟩
    rcases hd with hd | ⟨q, hq⟩
    · exact .inl ((hblk j).2.2.2.2 hd)
    · rcases hun q j hq with rfl | hq
      · exact .inl hdirty
      · exact .inr ⟨q, hq⟩
  · intro j
    rw [(hblk j).1, (hblk j).2.1, (hblk j).2.2.1, (hblk j).2.2.2.1, hdisk]
    intro hd hjv hjh
    exact (h.copies j hd hjv hjh).imp_right (.imp fun q hq => absurd hq (hw q j))

variable [DecidableEq P] [Fintype P]

theorem Owned.ne_of_locks (h : Owned s) {q : P} {j : Fin NBUF} (hq : q ≠ p)
    (hi : i ∈ (s.thr p).locks) (hj : j ∈ (s.thr q).locks) : j ≠ i := by
  rintro rfl
  have ho := (h.owner_of_mem hi).symm.trans (h.owner_of_mem hj)
  exact hq (Option.some.inj ho).symm

section
variable (h : Inv log s)
include h

theorem Inv.notMem_unlogged {q : P} (h0 : (s.cache.buf i).refcnt = 0) : i ∉ (s.thr q).unlogged := by
  intro hi
  have hpos := h.owned.refcnt_pos (mem_refs_of_held ((h.locals q).unlogged i hi).1)
  omega

theorem Inv.of_io {io : Io}
    (hown : Owned ({ s with cache := c }.setThr p { s.thr p with io := io }))
    (hdisk : c.disk = s.cache.disk)
    (hview : ∀ j, (s.cache.buf j).SameView (c.buf j) ∨ (c.buf j).valid = false ∧
      (c.buf j).dirty = false ∧ (s.cache.buf j).refcnt = 0 ∧ (s.cache.buf j).dirty = false)
    (hask : ∀ b j, io.Asked b j → Asks log s.log.lh (s.log.pc p) (s.thr p) b)
    (hlog : ∀ j, io ≠ .logging j)
    (hfits : ∀ d, s.log.pc p = .committing d → io = (s.thr p).io ∨ s.log.lh.length < LOGSIZE) :
    Inv log ({ s with cache := c }.setThr p { s.thr p with io := io }) := by
  have hloc := h.locals p
  have hsame : SameLog s { s with cache := c } := ⟨rfl, rfl, rfl, hdisk⟩
  have hused : ∀ q j, j ∈ (s.thr q).refs → (s.cache.buf j).SameView (c.buf j) := by
    intro q j hj
    refine (hview j).resolve_right fun hrec => ?_
    have := h.owned.refcnt_pos hj
    omega
  refine h.of_setThr (by rfl) h.group hown ?_ ?_ (fun q _ => .inl rfl)
    (fun q j _ hj => hused q j (mem_refs_of_locks hj)) (fun _ _ _ _ => hsame)
  · refine h.shared.frame ⟨rfl, rfl, rfl, hdisk⟩ ?_ h.shared.calm (setThr_unlogged rfl rfl) ?_
    · intro j
      refine (hview j).imp_right ?_
      rintro ⟨hv, hd, h0, hnd⟩
      exact ⟨⟨hv, hd⟩, hnd, fun q => h.notMem_unlogged h0⟩
    · exact fun q j hq => hq.of_setThr rfl rfl rfl rfl rfl
  · constructor
    · intro j hj
      have hv := hused p j (mem_refs_of_held hj)
      rw [show (c.buf j).blockno = _ from hv.blockno, show (c.buf j).valid = _ from hv.valid]
      exact hloc.held j hj
    · exact hloc.unlogged
    · intro b j ha
      exact (hask b j ha).frame (fun _ _ => rfl) rfl
    · intro j hj
      exact absurd hj (hlog j)
    · exact hloc.idle
    · intro d hd
      exact (hloc.stage d hd).frame hsame rfl rfl
        (fun j hj => hused p j (mem_refs_of_regs hj)) (hfits d hd)

theorem Inv.get (hsize : LOGSIZE ≤ log.size) (hio : (s.thr p).io = .ready)
    (ha : Asks log s.log.lh (s.log.pc p) (s.thr p) b) (hb : BGet s.cache ROOTDEV b i c) :
    Inv log ({ s with cache := c }.setThr p { s.thr p with io := .getting b i }) := by
  refine h.of_io (h.owned.get hio hb) hb.disk_eq hb.view ?_ (by simp) ?_
  · rintro b' j (hg | hg) <;> cases hg
    exact ha
  intro d hd
  right
  cases ha with
  | user hno _ => exact absurd hd (hno d)
  | commit d' hd' hins =>
    exact ((h.locals p).stage d' hd').fits_of_get h.shared h.group.nodup hsize hins hb

theorem Inv.acquire (hio : (s.thr p).io = .getting b i)
    (ho : (s.cache.buf i).owner = none) :
    Inv log ((s.setBuf i { s.cache.buf i with owner := some p }).setThr p
      { s.thr p with io := .filling b i }) := by
  refine h.of_io (h.owned.acquire hio ho) rfl ?_ ?_ (by simp) ?_
  · intro j
    left
    exact sameView_set (by exact ⟨rfl, rfl, rfl, rfl, rfl⟩) j
  · rintro b' j (hg | hg) <;> cases hg
    exact (h.locals p).asking b i (.inl hio)
  intro d hd
  right
  rcases ((h.locals p).stage d hd).fits with ⟨-, -, hr⟩ | hlt
  · rw [hio] at hr
    cases hr
  · exact hlt

theorem Inv.unref (hio : (s.thr p).io = .releasing i) :
    Inv log ({ s with cache := s.cache.unref i }.setThr p { s.thr p with io := .ready }) := by
  refine h.of_io (h.owned.unref hio) (unref_disk ..) ?_ ?_ (by simp) ?_
  · intro j
    left
    rw [unref_buf]
    exact sameView_set (by exact ⟨rfl, rfl, rfl, rfl, rfl⟩) j
  · rintro b' j (hg | hg) <;> cases hg
  intro d hd
  right
  rcases ((h.locals p).stage d hd).fits with ⟨-, -, hr⟩ | hlt
  · rw [hio] at hr
    cases hr
  · exact hlt

theorem Inv.unlock (hio : (s.thr p).io = .ready)
    (hd : Drops log s.log.lh (s.log.pc p) (s.thr p) i t) (ho : (s.cache.buf i).owner = some p) :
    Inv log ((s.setBuf i { s.cache.buf i with owner := none }).setThr p t) := by
  have hloc := h.locals p
  have hview : ∀ j, (s.cache.buf j).SameView
      ((s.setBuf i { s.cache.buf i with owner := none }).cache.buf j) :=
    sameView_set (by exact ⟨rfl, rfl, rfl, rfl, rfl⟩)
  have hsame : SameLog s (s.setBuf i { s.cache.buf i with owner := none }) :=
    ⟨rfl, rfl, rfl, rfl⟩
  have hheld : ∀ j ∈ (s.thr p).held, log.Home ((s.setBuf i
      { s.cache.buf i with owner := none }).cache.buf j).blockno ∧
      ((s.setBuf i { s.cache.buf i with owner := none }).cache.buf j).valid = true := by
    intro j hj
    rw [(hview j).blockno, (hview j).valid]
    exact hloc.held j hj
  refine h.of_setThr (by rfl) h.group (h.owned.unlock hio hd ho) ?_ ?_ (fun q _ => .inl rfl)
    (fun q j _ _ => hview j) (fun _ _ _ _ => hsame)
  · refine h.shared.frame ⟨rfl, rfl, rfl, rfl⟩ (fun j => .inl (hview j)) h.shared.calm
      (setThr_unlogged rfl ?_) ?_
    · cases hd <;> rfl
    intro q j hq
    cases hd with
    | user => exact hq.of_setThr rfl rfl rfl rfl rfl
    | commit c r hc hins hr =>
      refine hq.of_ne ?_ rfl rfl rfl
      rintro rfl
      obtain ⟨c', r', hc', hins', -⟩ := hq
      cases hc.symm.trans hc'
      cases hins.symm.trans hins'
  · cases hd with
    | user hno hi hu =>
      constructor
      · exact fun j hj => hheld j (List.mem_of_mem_erase hj)
      · intro j hj
        have hne : j ≠ i := fun hji => hu (hji ▸ hj)
        exact ⟨(List.mem_erase_of_ne hne).2 (hloc.unlogged j hj).1, (hloc.unlogged j hj).2⟩
      · rintro b j (hg | hg) <;> cases hg
      · intro j hj
        cases hj
      · exact hloc.idle
      · exact fun c hc => absurd hc (hno c)
    | commit c r hc hins hr =>
      constructor
      · exact hheld
      · exact hloc.unlogged
      · rintro b j (hg | hg) <;> cases hg
      · intro j hj
        cases hj
      · exact fun hno => absurd hc (hno c)
      intro c' hc'
      cases hc.symm.trans hc'
      have hst := hloc.stage c hc
      have hk := body_brelse hins
      refine hst.advance hins rfl rfl ?_ ?_ (.inl (by omega)) ?_
      · simp only [Instr.regs, List.eraseIdx_map, (hview _).blockno]
      · intro j hj
        rw [(hview j).valid]
        exact hst.valid j (List.mem_of_mem_eraseIdx hj)
      refine hst.point.advance hsame ?_ ?_
      · intro tail ht
        have := hk.2 tail ht
        simp only
        omega
      by_cases hw : ∃ tail, c = .writeLog tail
      · obtain ⟨tail, rfl⟩ := hw
        have := hk.2 tail (.inl rfl)
        exact .inl (by simp only; omega)
      · exact .inr fun tail ht => hw ⟨tail, ht⟩

end

theorem Shared.read (h : Shared log s) (hown : Owned s) (hs : SameLog s s')
    (hdev : (s.cache.buf i).dev = ROOTDEV) (hinv : (s.cache.buf i).valid = false)
    (hself : s'.cache.buf i = { s.cache.buf i with
      data := s.cache.disk (s.cache.buf i).blockno, valid := true, dirty := false })
    (hother : ∀ j, j ≠ i → s'.cache.buf j = s.cache.buf j)
    (hcalm : s'.log.committing = false → s.installed = 0)
    (hun : ∀ q, (s'.thr q).unlogged = (s.thr q).unlogged)
    (hw : ∀ q j, Writing log s q j → Writing log s' q j) : Shared log s' := by
  have hnd : (s.cache.buf i).dirty = false := by
    by_contra hd
    rw [Bool.not_eq_false] at hd
    rw [(h.dirty i hd).2.1] at hinv
    cases hinv
  have hne : ∀ j, (s.cache.buf j).valid = true → j ≠ i := by
    rintro j hj rfl
    rw [hinv] at hj
    cases hj
  constructor
  · rw [hs.lh]
    exact h.homes
  · intro j hd hv hh
    rw [hs.stored]
    by_cases hj : j = i
    · subst hj
      rw [hself] at hh ⊢
      refine (h.fresh _ hh).resolve_right ?_
      rintro ⟨k, hc, hv, -⟩
      exact hne k hv (hown.unique k j _ hc ⟨hdev, rfl⟩)
    · rw [hother j hj] at hd hv hh ⊢
      exact h.content j hd hv hh
  · intro b hb
    rw [State.pinned, hs.lh, hs.installed] at hb
    obtain ⟨j, hc, hd⟩ := h.pinned b hb
    have hj := hother j (hne j (h.dirty j hd).2.1)
    refine ⟨j, ?_, ?_⟩
    · rw [Cache.Caches, hj]
      exact hc
    · rw [hj, hd]
  · intro j hd
    have hj : j ≠ i := by
      rintro rfl
      rw [hself] at hd
      cases hd
    rw [hother j hj] at hd ⊢
    rw [State.pinned, hs.lh, hs.installed]
    exact h.dirty j hd
  · exact fun hc => hs.installed.trans (hcalm hc)
  · intro b hb
    rw [hs.disk, hs.stored]
    refine (h.fresh b hb).imp_right ?_
    rintro ⟨j, hc, hv, hd⟩
    have hj := hother j (hne j hv)
    refine ⟨j, ?_, ?_, ?_⟩
    · rw [Cache.Caches, hj]
      exact hc
    · rw [hj, hv]
    · rw [hj]
      exact hd.imp_right (.imp fun q hq => hun q ▸ hq)
  · intro j hd hv hh
    rw [hs.disk]
    by_cases hj : j = i
    · subst hj
      rw [hself]
      exact .inl rfl
    · rw [hother j hj] at hd hv hh ⊢
      exact (h.copies j hd hv hh).imp_right (.imp fun q hq => hw q j hq)

theorem Thread.keep_unlogged (t : Thread) (pc : Log.Pc) (i : Fin NBUF) :
    (t.keep pc i).unlogged = t.unlogged := by
  unfold Thread.keep
  split <;> rfl

theorem Thread.keep_user (t : Thread) {pc : Log.Pc} (i : Fin NBUF) (hno : ∀ c, pc ≠ .committing c) :
    t.keep pc i = { t with held := t.held ++ [i], io := .ready } := by
  unfold Thread.keep
  split
  · exact absurd rfl (hno _)
  · rfl

theorem Inv.fill (h : Inv log s) (hio : (s.thr p).io = .filling b i)
    (hc : s.cache.fill p i = .ok c) :
    Inv log ({ s with cache := c }.setThr p ((s.thr p).keep (s.log.pc p) i)) := by
  have hloc := h.locals p
  have hdv : (s.cache.buf i).dirty = true → (s.cache.buf i).valid = true :=
    fun hd => (h.shared.dirty i hd).2.1
  have hlock : i ∈ (s.thr p).locks := by
    refine List.mem_append_right _ ?_
    simp [hio, Io.locks]
  have hdev := h.owned.dev_of_mem (mem_refs_of_locks hlock)
  have hblk := h.owned.asked p b i (.inr hio)
  have hask := hloc.asking b i (.inr hio)
  have hout := fill_eq_ok hc hdv
  have hvalid : (c.buf i).valid = true ∧ (c.buf i).blockno = b := by
    rcases hout with ⟨hv, rfl⟩ | ⟨-, rfl⟩
    · exact ⟨hv, hblk⟩
    · rw [buf_set_self]
      exact ⟨rfl, hblk⟩
  have hother : ∀ j, j ≠ i → c.buf j = s.cache.buf j := by
    intro j hj
    rcases hout with ⟨-, rfl⟩ | ⟨-, rfl⟩
    · rfl
    · exact buf_set_of_ne _ _ hj
  have hkept : ∀ j, (s.cache.buf j).valid = true → (c.buf j).blockno = (s.cache.buf j).blockno ∧
      (c.buf j).valid = true := by
    intro j hj
    by_cases hji : j = i
    · subst hji
      exact ⟨hvalid.2.trans hblk.symm, hvalid.1⟩
    · rw [hother j hji]
      exact ⟨rfl, hj⟩
  have hdisk : c.disk = s.cache.disk := by
    rcases hout with ⟨-, rfl⟩ | ⟨-, rfl⟩ <;> rfl
  have hsame : SameLog s { s with cache := c } := ⟨rfl, rfl, rfl, hdisk⟩
  have hun : ∀ q, (({ s with cache := c }.setThr p
      ((s.thr p).keep (s.log.pc p) i)).thr q).unlogged = (s.thr q).unlogged :=
    setThr_unlogged rfl (Thread.keep_unlogged ..)
  have hw : ∀ q j, Writing log s q j →
      Writing log ({ s with cache := c }.setThr p ((s.thr p).keep (s.log.pc p) i)) q j := by
    intro q j hq
    cases hask with
    | user hno _ =>
      rw [Thread.keep_user _ _ hno]
      exact hq.of_setThr rfl rfl rfl rfl rfl
    | commit d hd hins =>
      refine hq.of_ne ?_ rfl rfl rfl
      rintro rfl
      obtain ⟨d', r', hd', hins', -⟩ := hq
      cases hd.symm.trans hd'
      cases hins.symm.trans hins'
  refine h.of_setThr (by rfl) h.group (h.owned.fill hio (fill_sameUse hc)) ?_ ?_
    (fun q _ => .inl rfl) ?_ (fun _ _ _ _ => hsame)
  · rcases hout with ⟨-, rfl⟩ | ⟨hinv, rfl⟩
    · exact h.shared.frame ⟨rfl, rfl, rfl, rfl⟩ (fun j => .inl (.refl _)) h.shared.calm hun hw
    · exact h.shared.read h.owned ⟨rfl, rfl, rfl, rfl⟩ hdev hinv (buf_set_self ..) hother
        h.shared.calm hun hw
  · have hheld : ∀ j ∈ (s.thr p).held, log.Home (c.buf j).blockno ∧ (c.buf j).valid = true := by
      intro j hj
      obtain ⟨hh, hv⟩ := hloc.held j hj
      rw [(hkept j hv).1]
      exact ⟨hh, (hkept j hv).2⟩
    cases hask with
    | user hno hb =>
      rw [Thread.keep_user _ _ hno]
      constructor
      · intro j hj
        rcases List.mem_append.1 hj with hj | hj
        · exact hheld j hj
        · rw [List.mem_singleton.1 hj]
          exact ⟨hvalid.2 ▸ hb, hvalid.1⟩
      · intro j hj
        exact ⟨List.mem_append_left _ (hloc.unlogged j hj).1, (hloc.unlogged j hj).2⟩
      · rintro b j (hg | hg) <;> cases hg
      · intro j hj
        cases hj
      · exact hloc.idle
      · exact fun d hd => absurd hd (hno d)
    | commit d hd hins =>
      have hkeep : (s.thr p).keep (s.log.pc p) i = { s.thr p with
          regs := (s.thr p).regs ++ [i], line := (s.thr p).line + 1, io := .ready } := by
        rw [hd]
        rfl
      rw [hkeep]
      constructor
      · exact hheld
      · exact hloc.unlogged
      · rintro b j (hg | hg) <;> cases hg
      · intro j hj
        cases hj
      · exact fun hno => absurd hd (hno d)
      intro d' hd'
      cases hd.symm.trans hd'
      have hst := hloc.stage d hd
      have hk := body_bread hins
      refine hst.advance hins rfl rfl ?_ ?_ (.inr (by rw [hio]; simp)) ?_
      · simp only [Instr.regs, List.map_append, List.map_cons, List.map_nil, hvalid.2]
        congr 1
        exact List.map_congr_left fun j hj => (hkept j (hst.valid j hj)).1
      · intro j hj
        rcases List.mem_append.1 hj with hj | hj
        · exact (hkept j (hst.valid j hj)).2
        · rw [List.mem_singleton.1 hj]
          exact hvalid.1
      refine hst.point.advance hsame (fun _ _ => ?_) (.inl ?_)
      · simp only
        omega
      · simp only
        omega
  · intro q j hq hj
    have hji := h.owned.ne_of_locks hq hlock hj
    change (s.cache.buf j).SameView (c.buf j)
    rw [hother j hji]
    exact .refl _

theorem Inv.no_committer (h : Inv log s) (hop : (s.log.pc p).op ≠ none) (q : P) (c : CommitPc) :
    s.log.pc q ≠ .committing c :=
  fun hq => hop (h.group.op_eq_none (h.group.flag hq) p)

theorem Inv.installed_eq_zero (h : Inv log s) (hop : (s.log.pc p).op ≠ none) : s.installed = 0 := by
  refine h.shared.calm ?_
  by_contra hc
  rw [Bool.not_eq_false] at hc
  exact hop (h.group.op_eq_none hc p)

theorem Shared.store {data : Block} (h : Shared log s) (hown : Owned s) (hlh : s'.log.lh = s.log.lh)
    (hinst : s'.installed = s.installed) (hdisk : s'.cache.disk = s.cache.disk)
    (hcom : s'.log.committing = s.log.committing)
    (hstored : s'.stored = update s.stored (s.cache.buf i).blockno data)
    (hself : s'.cache.buf i = { s.cache.buf i with data := data })
    (hother : ∀ j, j ≠ i → s'.cache.buf j = s.cache.buf j) (hdev : (s.cache.buf i).dev = ROOTDEV)
    (hv : (s.cache.buf i).valid = true) (hh : log.Home (s.cache.buf i).blockno)
    (hun : ∀ q j, j ∈ (s.thr q).unlogged → j ∈ (s'.thr q).unlogged)
    (hi : ∃ q, i ∈ (s'.thr q).unlogged) (hw : ∀ q j, ¬Writing log s q j) : Shared log s' := by
  have hblk := same_of_data hself hother
  have hcaches : ∀ j b, s'.cache.Caches j ROOTDEV b ↔ s.cache.Caches j ROOTDEV b :=
    fun j b => caches_congr (hblk j).1 (hblk j).2.1 ROOTDEV b
  have hpin : s'.pinned = s.pinned := by rw [State.pinned, hlh, hinst, State.pinned]
  constructor
  · rw [hlh]
    exact h.homes
  · intro j hd hjv hjh
    by_cases hj : j = i
    · subst hj
      rw [hself, hstored, update_self]
    rw [hother j hj] at hd hjv hjh ⊢
    have hne : (s.cache.buf j).blockno ≠ (s.cache.buf i).blockno := fun heq =>
      hj (hown.unique j i _ ⟨hd, heq⟩ ⟨hdev, rfl⟩)
    rw [hstored, update_of_ne hne]
    exact h.content j hd hjv hjh
  · intro b hb
    rw [hpin] at hb
    obtain ⟨j, hc, hd⟩ := h.pinned b hb
    exact ⟨j, (hcaches j b).2 hc, (hblk j).2.2.2.trans hd⟩
  · intro j
    rw [(hblk j).1, (hblk j).2.1, (hblk j).2.2.1, (hblk j).2.2.2, hpin]
    exact h.dirty j
  · rw [hcom, hinst]
    exact h.calm
  · intro b hb
    by_cases hbi : b = (s.cache.buf i).blockno
    · right
      refine ⟨i, (hcaches i b).2 ⟨hdev, hbi.symm⟩, (hblk i).2.2.1.trans hv, .inr hi⟩
    rw [hdisk, hstored, update_of_ne hbi]
    refine (h.fresh b hb).imp_right ?_
    rintro ⟨j, hc, hjv, hd⟩
    refine ⟨j, (hcaches j b).2 hc, (hblk j).2.2.1.trans hjv, ?_⟩
    exact hd.imp (fun hd => (hblk j).2.2.2.trans hd) (.imp fun q hq => hun q j hq)
  · intro j hd hjv hjh
    have hj : j ≠ i := by
      rintro rfl
      rw [hself] at hjh
      exact hjh hh
    rw [hother j hj] at hd hjv hjh ⊢
    rw [hdisk]
    exact (h.copies j hd hjv hjh).imp_right (.imp fun q hq => absurd hq (hw q j))

theorem Inv.store (h : Inv log s) {data : Block} {e : ℕ} {w : List ℕ}
    (hio : (s.thr p).io = .ready) (hpc : s.log.pc p = .inOp e w) (hi : i ∈ (s.thr p).held) :
    Inv log (({ s with stored := update s.stored (s.cache.buf i).blockno data }.setBuf i
      { s.cache.buf i with data := data }).setThr p
        { s.thr p with unlogged := i :: (s.thr p).unlogged }) := by
  have hloc := h.locals p
  have hop : (s.log.pc p).op ≠ none := by simp [hpc, Log.Pc.op]
  have hno := h.no_committer hop
  have hdev := h.owned.dev_of_mem (mem_refs_of_held hi)
  have hmi : Move log s p (({ s with
      stored := update s.stored (s.cache.buf i).blockno data }.setBuf i
        { s.cache.buf i with data := data }).setThr p
          { s.thr p with unlogged := i :: (s.thr p).unlogged }) := .store i data e w hio hpc hi
  refine h.of_setThr (by rfl) h.group (h.owned.move hmi) ?_ ?_ (fun q _ => .inl rfl) ?_
    (fun q c _ hc => absurd hc (hno q c))
  · refine h.shared.store h.owned rfl rfl rfl rfl rfl (buf_set_self ..)
      (fun j hj => buf_set_of_ne _ _ hj) hdev (hloc.held i hi).2 (hloc.held i hi).1 ?_ ?_ ?_
    · refine forall_setThr (Q := fun q t => ∀ j, j ∈ (s.thr q).unlogged → j ∈ t.unlogged) ?_ ?_
      · exact fun j hj => List.mem_cons_of_mem _ hj
      · exact fun q _ j hj => hj
    · refine ⟨p, ?_⟩
      rw [setThr_self]
      exact List.mem_cons_self
    · rintro q j ⟨c, r, hc, -⟩
      exact hno q c hc
  · have hview : ∀ j, ((s.cache.set i { s.cache.buf i with data := data }).buf j).blockno =
        (s.cache.buf j).blockno ∧
        ((s.cache.set i { s.cache.buf i with data := data }).buf j).valid = (s.cache.buf j).valid :=
      forall_set (Q := fun j x => x.blockno = (s.cache.buf j).blockno ∧
        x.valid = (s.cache.buf j).valid) (by exact ⟨rfl, rfl⟩) fun _ _ => ⟨rfl, rfl⟩
    constructor
    · intro j hj
      change log.Home ((s.cache.set i _).buf j).blockno ∧ ((s.cache.set i _).buf j).valid = true
      rw [(hview j).1, (hview j).2]
      exact hloc.held j hj
    · intro j hj
      rcases List.mem_cons.1 hj with rfl | hj
      · exact ⟨hi, hop⟩
      · exact hloc.unlogged j hj
    · intro b j ha
      exact (hloc.asking b j ha).frame (fun _ _ => rfl) rfl
    · intro j hj
      rw [hio] at hj
      cases hj
    · exact hloc.idle
    · exact fun c hc => absurd hc (hno p c)
  · intro q j hq hj
    have hji := h.owned.ne_of_locks hq (mem_locks_of_held hi) hj
    change (s.cache.buf j).SameView ((s.cache.set i _).buf j)
    rw [buf_set_of_ne _ _ hji]
    exact .refl _

variable {l : Log.State P} (h : Inv log s)
include h

theorem Inv.of_logStep {a : Log.Act} (hm : Log.Move log.size s.log p a l)
    (hnc : ∀ c, s.log.pc p ≠ .committing c) (hlh : l.lh = s.log.lh)
    (hcom : l.committing = false → s.log.committing = false)
    (hown : Owned ({ s with log := l }.setThr p t)) (hun : t.unlogged = (s.thr p).unlogged)
    (hloc : Local log { s with log := l } (l.pc p) t) :
    Inv log ({ s with log := l }.setThr p t) := by
  refine h.of_setThr (by rfl) (h.group.move hm) hown ?_ hloc (fun q hq => hm.others hq)
    (fun _ _ _ _ => .refl _) (fun _ _ _ _ => ⟨hlh, rfl, rfl, rfl⟩)
  refine h.shared.frame ⟨hlh, rfl, rfl, rfl⟩ (fun j => .inl (.refl _))
    (fun hc => h.shared.calm (hcom hc)) (setThr_unlogged rfl hun) ?_
  intro q j hq
  obtain ⟨c, r, hc, -⟩ := id hq
  have hqp : q ≠ p := by
    rintro rfl
    exact hnc c hc
  refine hq.of_ne hqp rfl ?_ hlh
  rcases hm.others hqp with hpc | ⟨hsl, -⟩
  · exact hpc
  · rw [hc] at hsl
    cases hsl

theorem Inv.test {e : ℕ} {w : List ℕ} (hio : (s.thr p).io = .ready)
    (hpc : s.log.pc p = .inOp e w) (hi : i ∈ (s.thr p).held)
    (hm : Log.Move log.size s.log p (.logWrite (s.cache.buf i).blockno) l) :
    Inv log ({ s with log := l }.setThr p
      { s.thr p with io := if l.panicked.isSome then .ready else .logging i }) := by
  have hloc := h.locals p
  have hop : (s.log.pc p).op ≠ none := by simp [hpc, Log.Pc.op]
  have hmi : Move log s p ({ s with log := l }.setThr p
      { s.thr p with io := if l.panicked.isSome then .ready else .logging i }) :=
    .test i l e w hio hpc hi hm
  have hown := h.owned.move hmi
  have hpc' : l.lh = s.log.lh ∧ l.committing = s.log.committing ∧ (l.pc p).op ≠ none ∧
      (∀ c, l.pc p ≠ .committing c) ∧
      (l.panicked.isSome = false → ∃ e w, l.pc p = .tested e w (s.cache.buf i).blockno) := by
    cases hm with
    | tooBig => simp [Log.State.panic, hpc, Log.Pc.op]
    | outside => simp [Log.State.panic, hpc, Log.Pc.op]
    | test e w => exact ⟨rfl, rfl, by simp [Log.Pc.op], by simp, fun _ => ⟨e, w, by simp⟩⟩
  obtain ⟨hlh, hcom, hop', hnc', htested⟩ := hpc'
  refine h.of_logStep hm (by simp [hpc]) hlh (fun hc => hcom ▸ hc) hown rfl ?_
  constructor
  · exact hloc.held
  · exact fun j hj => ⟨(hloc.unlogged j hj).1, hop'⟩
  · intro b j ha
    rcases ha with ha | ha
    all_goals
      simp only at ha
      split at ha <;> cases ha
  · intro j hj
    simp only at hj
    split at hj
    · cases hj
    · rename_i hp
      cases hj
      exact ⟨hi, htested (by simpa using hp)⟩
  · exact fun _ => hloc.idle (by simp [hpc])
  · exact fun c hc => absurd hc (hnc' c)

theorem Inv.logStep {a : Log.Act} (hio : (s.thr p).io = .ready)
    (hc : ∀ c, s.log.pc p ≠ .committing c) (ht : ∀ e w b, s.log.pc p ≠ .tested e w b)
    (hu : (s.log.pc p).op ≠ none → (s.thr p).unlogged = []) (ha : ∀ b, a ≠ .logWrite b)
    (hm : Log.Move log.size s.log p a l) : Inv log ({ s with log := l }.setThr p (s.thr p)) := by
  have hloc := h.locals p
  have hmi : Move log s p ({ s with log := l }.setThr p (s.thr p)) :=
    .logStep a l hio hc ht hu ha hm
  obtain ⟨hlh, hcom, hstart⟩ := hm.outside_commit hc ht ha
  obtain ⟨hregs, hline⟩ := hloc.idle hc
  have hnil : (s.thr p).unlogged = [] := by
    by_cases hop : (s.log.pc p).op = none
    · exact List.eq_nil_iff_forall_not_mem.2 fun j hj => (hloc.unlogged j hj).2 hop
    · exact hu hop
  refine h.of_logStep hm hc hlh hcom (h.owned.move hmi) rfl ?_
  constructor
  · exact hloc.held
  · rw [hnil]
    intro j hj
    cases hj
  · rintro b j (hg | hg) <;> simp [hio] at hg
  · intro j hj
    simp [hio] at hj
  · exact fun _ => ⟨hregs, hline⟩
  intro c hpc
  obtain ⟨rfl, hnc⟩ := hstart c hpc
  refine ⟨?_, ?_, ?_, .inl ⟨.inl rfl, hline, hio⟩, h.shared.calm hnc⟩
  · rw [hline]
    exact Nat.zero_le _
  · rw [hregs, hline]
    rfl
  · rw [hregs]
    intro j hj
    cases hj

theorem Inv.append (hio : (s.thr p).io = .logging i)
    (hm : Log.Move log.size s.log p .run l) :
    Inv log (({ s with log := l }.setBuf i { s.cache.buf i with dirty := true }).setThr p
      { s.thr p with io := .ready, unlogged := (s.thr p).unlogged.filter (· ≠ i) }) := by
  have hloc := h.locals p
  obtain ⟨hi, e, w, hpc⟩ := hloc.logging i hio
  have hop : (s.log.pc p).op ≠ none := by simp [hpc, Log.Pc.op]
  have hno := h.no_committer hop
  have hdev := h.owned.dev_of_mem (mem_refs_of_held hi)
  have hmi : Move log s p (({ s with log := l }.setBuf i
      { s.cache.buf i with dirty := true }).setThr p
        { s.thr p with io := .ready, unlogged := (s.thr p).unlogged.filter (· ≠ i) }) :=
    .append i l hio hm
  have hown := h.owned.move hmi
  have hl := hm.of_tested hpc
  have hlpc : l.pc p = .inOp e (Log.absorb w (s.cache.buf i).blockno) := by
    rw [hl, Log.logAppend, Log.goto_pc_self]
  refine h.of_setThr (by rfl) (h.group.move hm) hown ?_ ?_ (fun q hq => hm.others hq) ?_
    (fun q c _ hc => absurd hc (hno q c))
  · refine h.shared.append (h.installed_eq_zero hop) rfl ?_ rfl rfl (buf_set_self ..)
      (fun j hj => buf_set_of_ne _ _ hj) hdev (hloc.held i hi).2 (hloc.held i hi).1 ?_ ?_
    · change l.lh = _
      rw [hl]
      rfl
    · refine forall_setThr
        (Q := fun q t => ∀ j, j ∈ (s.thr q).unlogged → j = i ∨ j ∈ t.unlogged) ?_ ?_
      · intro j hj
        by_cases hji : j = i
        · exact .inl hji
        · exact .inr (List.mem_filter.2 ⟨hj, by simpa using hji⟩)
      · exact fun q _ j hj => .inr hj
    · rintro q j ⟨c, r, hc, -⟩
      exact hno q c hc
  · have hview : ∀ j, ((s.cache.set i { s.cache.buf i with dirty := true }).buf j).blockno =
        (s.cache.buf j).blockno ∧
        ((s.cache.set i { s.cache.buf i with dirty := true }).buf j).valid =
        (s.cache.buf j).valid :=
      forall_set (Q := fun j x => x.blockno = (s.cache.buf j).blockno ∧
        x.valid = (s.cache.buf j).valid) (by exact ⟨rfl, rfl⟩) fun _ _ => ⟨rfl, rfl⟩
    change Local log _ (l.pc p) _
    rw [hlpc]
    constructor
    · intro j hj
      change log.Home ((s.cache.set i _).buf j).blockno ∧ ((s.cache.set i _).buf j).valid = true
      rw [(hview j).1, (hview j).2]
      exact hloc.held j hj
    · intro j hj
      exact ⟨(hloc.unlogged j (List.mem_of_mem_filter hj)).1, by simp [Log.Pc.op]⟩
    · rintro b j (hg | hg) <;> cases hg
    · intro j hj
      cases hj
    · exact fun _ => hloc.idle (hno p)
    · intro c hc
      cases hc
  · intro q j hq hj
    have hji := h.owned.ne_of_locks hq (mem_locks_of_held hi) hj
    change (s.cache.buf j).SameView ((s.cache.set i _).buf j)
    rw [buf_set_of_ne _ _ hji]
    exact .refl _

end Xv6.Bio
