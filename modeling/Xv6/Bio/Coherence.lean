import Xv6.Bio.Calls

namespace Xv6.Bio

open Lib Function
open List (drop_nil mem_of_getElem?)
open Log (Area CommitPc)

variable {P : Type} {log : Area} {s : State P} {p : P} {i : Fin NBUF} {b : ℕ}

theorem Area.notHome (h0 : log.start ≤ b) (h1 : b < log.start + log.size) :
    ¬log.Home b := fun h => h ⟨h0, h1⟩

variable {s' : State P}

section
variable (h : Shared log s)
include h

theorem Shared.copy {data : Block} (hs : SameLog s s')
    (hcom : s'.log.committing = s.log.committing)
    (hthr : ∀ q, (s'.thr q).unlogged = (s.thr q).unlogged)
    (hself : s'.cache.buf i = { s.cache.buf i with data := data })
    (hother : ∀ j, j ≠ i → s'.cache.buf j = s.cache.buf j) (hh : ¬log.Home (s.cache.buf i).blockno)
    (hi : ∃ q, Writing log s' q i) (hw : ∀ q j, ¬Writing log s q j) : Shared log s' := by
  have hblk := same_of_data hself hother
  have hcaches : ∀ j b, s'.cache.Caches j ROOTDEV b ↔ s.cache.Caches j ROOTDEV b :=
    fun j b => caches_congr (hblk j).1 (hblk j).2.1 ROOTDEV b
  have hpin : s'.pinned = s.pinned := by rw [State.pinned, hs.lh, hs.installed, State.pinned]
  constructor
  · rw [hs.lh]
    exact h.homes
  · intro j hd hjv hjh
    have hj : j ≠ i := by
      rintro rfl
      rw [hself] at hjh
      exact hh hjh
    rw [hother j hj] at hd hjv hjh ⊢
    rw [hs.stored]
    exact h.content j hd hjv hjh
  · intro b hb
    rw [hpin] at hb
    obtain ⟨j, hc, hd⟩ := h.pinned b hb
    exact ⟨j, (hcaches j b).2 hc, (hblk j).2.2.2.trans hd⟩
  · intro j
    rw [(hblk j).1, (hblk j).2.1, (hblk j).2.2.1, (hblk j).2.2.2, hpin]
    exact h.dirty j
  · rw [hcom, hs.installed]
    exact h.calm
  · intro b hb
    rw [hs.disk, hs.stored]
    refine (h.fresh b hb).imp_right ?_
    rintro ⟨j, hc, hjv, hd⟩
    refine ⟨j, (hcaches j b).2 hc, (hblk j).2.2.1.trans hjv, ?_⟩
    exact hd.imp (fun hd => (hblk j).2.2.2.trans hd) (.imp fun q hq => hthr q ▸ hq)
  · intro j hd hjv hjh
    by_cases hj : j = i
    · subst hj
      exact .inr hi
    · rw [hother j hj] at hd hjv hjh ⊢
      rw [hs.disk]
      exact (h.copies j hd hjv hjh).imp_right (.imp fun q hq => absurd hq (hw q j))

theorem Shared.bwriteLog
    (hunique : ∀ i j b, s.cache.Caches i ROOTDEV b → s.cache.Caches j ROOTDEV b → i = j)
    (hlh : s'.log.lh = s.log.lh) (hinst : s'.installed = s.installed)
    (hstored : s'.stored = s.stored) (hcom : s'.log.committing = s.log.committing)
    (hthr : ∀ q, (s'.thr q).unlogged = (s.thr q).unlogged)
    (hdisk : s'.cache.disk = update s.cache.disk (s.cache.buf i).blockno (s.cache.buf i).data)
    (hself : s'.cache.buf i = { s.cache.buf i with dirty := false, valid := true })
    (hother : ∀ j, j ≠ i → s'.cache.buf j = s.cache.buf j) (hdev : (s.cache.buf i).dev = ROOTDEV)
    (hv : (s.cache.buf i).valid = true) (hh : ¬log.Home (s.cache.buf i).blockno)
    (hw : ∀ q j, Writing log s q j → j = i) : Shared log s' := by
  have hnd : (s.cache.buf i).dirty = false := by
    by_contra hd
    rw [Bool.not_eq_false] at hd
    exact h.notMem_pinned hh (h.dirty i hd).2.2
  have hbuf : ∀ j, s'.cache.buf j = s.cache.buf j := by
    intro j
    by_cases hj : j = i
    · subst hj
      rw [hself, ← hnd, ← hv]
    · exact hother j hj
  have hcache : s'.cache.buf = s.cache.buf := funext hbuf
  have hpin : s'.pinned = s.pinned := by rw [State.pinned, hlh, hinst, State.pinned]
  have hhome : ∀ b, log.Home b → s'.cache.disk b = s.cache.disk b := by
    intro b hb
    rw [hdisk, update_of_ne]
    rintro rfl
    exact hh hb
  constructor
  · rw [hlh]
    exact h.homes
  · rw [hcache, hstored]
    exact h.content
  · simp only [Cache.Caches, hcache, hpin]
    exact h.pinned
  · rw [hcache, hpin]
    exact h.dirty
  · rw [hcom, hinst]
    exact h.calm
  · intro b hb
    rw [hhome b hb, hstored]
    refine (h.fresh b hb).imp_right ?_
    rintro ⟨j, hc, hjv, hd⟩
    refine ⟨j, ?_, ?_, ?_⟩
    · rw [Cache.Caches, hbuf j]
      exact hc
    · rw [hbuf j, hjv]
    · rw [hbuf j]
      exact hd.imp_right (.imp fun q hq => hthr q ▸ hq)
  · intro j hd hjv hjh
    rw [hbuf j] at hd hjv hjh ⊢
    rw [hdisk]
    left
    by_cases hj : j = i
    · subst hj
      rw [update_self]
    · have hne : (s.cache.buf j).blockno ≠ (s.cache.buf i).blockno := fun heq =>
        hj (hunique j i _ ⟨hd, heq⟩ ⟨hdev, rfl⟩)
      rw [update_of_ne hne]
      exact (h.copies j hd hjv hjh).resolve_right (not_exists.2 fun q hq => hj (hw q j hq))

theorem Shared.bwriteHome
    (hunique : ∀ i j b, s.cache.Caches i ROOTDEV b → s.cache.Caches j ROOTDEV b → i = j)
    (hn : s.log.lh.Nodup) (hlh : s'.log.lh = s.log.lh) (hinst : s'.installed = s.installed + 1)
    (hnext : s.log.lh[s.installed]? = some (s.cache.buf i).blockno) (hstored : s'.stored = s.stored)
    (hcom : s'.log.committing = true) (hthr : ∀ q, (s'.thr q).unlogged = (s.thr q).unlogged)
    (hdisk : s'.cache.disk = update s.cache.disk (s.cache.buf i).blockno (s.cache.buf i).data)
    (hself : s'.cache.buf i = { s.cache.buf i with dirty := false, valid := true })
    (hother : ∀ j, j ≠ i → s'.cache.buf j = s.cache.buf j) (hdev : (s.cache.buf i).dev = ROOTDEV)
    (hv : (s.cache.buf i).valid = true) (hw : ∀ q j, Writing log s q j → j = i) :
    Shared log s' := by
  obtain ⟨hlt, hget⟩ := List.getElem?_eq_some_iff.1 hnext
  have hpin : s.pinned = (s.cache.buf i).blockno :: s'.pinned := by
    rw [State.pinned, State.pinned, hlh, hinst, ← hget]
    exact List.drop_eq_getElem_cons hlt
  have hnodup : s.pinned.Nodup := hn.sublist (List.drop_sublist _ _)
  rw [hpin] at hnodup
  have hnotMem : (s.cache.buf i).blockno ∉ s'.pinned := (List.nodup_cons.1 hnodup).1
  have hh : log.Home (s.cache.buf i).blockno := h.homes _ (mem_of_getElem? hnext)
  have hne : ∀ j, (s.cache.buf j).dev = ROOTDEV → j ≠ i →
      (s.cache.buf j).blockno ≠ (s.cache.buf i).blockno := fun j hd hj heq =>
    hj (hunique j i _ ⟨hd, heq⟩ ⟨hdev, rfl⟩)
  constructor
  · rw [hlh]
    exact h.homes
  · intro j hd hjv hjh
    rw [hstored]
    by_cases hj : j = i
    · subst hj
      rw [hself]
      exact h.content j hdev hv hh
    · rw [hother j hj] at hd hjv hjh ⊢
      exact h.content j hd hjv hjh
  · intro b hb
    obtain ⟨j, hc, hd⟩ := h.pinned b (hpin ▸ List.mem_cons_of_mem _ hb)
    have hj : j ≠ i := by
      rintro rfl
      exact hnotMem (hc.2 ▸ hb)
    refine ⟨j, ?_, ?_⟩
    · rw [Cache.Caches, hother j hj]
      exact hc
    · rw [hother j hj, hd]
  · intro j hd
    have hj : j ≠ i := by
      rintro rfl
      rw [hself] at hd
      cases hd
    rw [hother j hj] at hd ⊢
    obtain ⟨hd1, hd2, hd3⟩ := h.dirty j hd
    rw [hpin] at hd3
    exact ⟨hd1, hd2, (List.mem_cons.1 hd3).resolve_left (hne j hd1 hj)⟩
  · rw [hcom]
    intro hc
    cases hc
  · intro b hb
    rw [hdisk, hstored]
    by_cases hbi : b = (s.cache.buf i).blockno
    · subst hbi
      rw [update_self]
      exact .inl (h.content i hdev hv hh)
    rw [update_of_ne hbi]
    refine (h.fresh b hb).imp_right ?_
    rintro ⟨j, hc, hjv, hd⟩
    have hj : j ≠ i := by
      rintro rfl
      exact hbi hc.2.symm
    refine ⟨j, ?_, ?_, ?_⟩
    · rw [Cache.Caches, hother j hj]
      exact hc
    · rw [hother j hj, hjv]
    · rw [hother j hj]
      exact hd.imp_right (.imp fun q hq => hthr q ▸ hq)
  · intro j hd hjv hjh
    have hj : j ≠ i := by
      rintro rfl
      rw [hself] at hjh
      exact hjh hh
    rw [hother j hj] at hd hjv hjh ⊢
    rw [hdisk, update_of_ne (hne j hd hj)]
    exact .inl ((h.copies j hd hjv hjh).resolve_right (not_exists.2 fun q hq => hj (hw q j hq)))

theorem Shared.clear (hall : s.log.lh.length ≤ s.installed)
    (hlh : s'.log.lh = []) (hinst : s'.installed = 0) (hcache : s'.cache = s.cache)
    (hstored : s'.stored = s.stored) (hthr : ∀ q, (s'.thr q).unlogged = (s.thr q).unlogged)
    (hw : ∀ q j, ¬Writing log s q j) : Shared log s' := by
  have hpin : s.pinned = [] := List.drop_eq_nil_of_le hall
  have hpin' : s'.pinned = [] := by rw [State.pinned, hlh, drop_nil]
  have hclean : ∀ j, (s.cache.buf j).dirty = true → False := by
    intro j hd
    have := (h.dirty j hd).2.2
    rw [hpin] at this
    cases this
  constructor
  · rw [hlh]
    intro b hb
    cases hb
  · rw [hcache, hstored]
    exact h.content
  · rw [hpin']
    intro b hb
    cases hb
  · rw [hcache]
    exact fun j hd => (hclean j hd).elim
  · exact fun _ => hinst
  · intro b hb
    rw [hcache, hstored]
    refine (h.fresh b hb).imp_right ?_
    rintro ⟨j, hc, hjv, hd⟩
    refine ⟨j, hcache ▸ hc, hcache ▸ hjv, ?_⟩
    rw [hcache]
    exact hd.imp_right (.imp fun q hq => hthr q ▸ hq)
  · rw [hcache]
    intro j hd hjv hjh
    exact (h.copies j hd hjv hjh).imp_right (.imp fun q hq => absurd hq (hw q j))

end

variable {t : Thread}

theorem Stage.fits_of_line {c : CommitPc} (h : Stage log s t c) (hl : t.line ≠ 0) :
    s.log.lh.length < LOGSIZE := by
  rcases h.fits with ⟨-, h0, -⟩ | hlt
  · exact absurd h0 hl
  · exact hlt

theorem Stage.regs_eq_nil {c : CommitPc} (h : Stage log s t c)
    (hend : (body log s.log.lh c)[t.line]? = none) : t.regs = [] := by
  have hle := List.getElem?_eq_none_iff.1 hend
  have hregs := h.regs
  rw [List.take_of_length_le hle, regBlocks_body] at hregs
  exact List.map_eq_nil_iff.1 hregs

theorem AtPoint.next {t t' : Thread} {c c' : CommitPc} (h : AtPoint log s t c)
    (hend : (body log s.log.lh c)[t.line]? = none) (hl : t'.line = 0)
    (hn : Log.nextCommit s.log.lh.length c = some c') : AtPoint log s t' c' := by
  cases c with
  | start =>
    cases hn
    split
    · refine ⟨h, ?_, ?_⟩
      · intro j b hj
        simp [hl] at hj
      · rw [hl]
        intro h3
        cases h3
    · exact h
  | writeLog tail =>
    cases hn
    split
    · rename_i hlt
      have hline : 4 ≤ t.line := by
        simp only [body, List.getElem?_eq_getElem hlt] at hend
        have := List.getElem?_eq_none_iff.1 hend
        simp at this
        omega
      refine ⟨h.1, ?_, ?_⟩
      · have hc := h.2.1
        rw [if_pos hline] at hc
        simpa [hl] using hc
      · rw [hl]
        intro h3
        cases h3
    · rename_i hge
      refine ⟨h.1, fun j b hj hb => h.2.1 j b ?_ hb⟩
      split <;> omega
  | writeHead =>
    cases hn
    exact ⟨by simpa [hl] using h.1, h.2⟩
  | install tail =>
    cases hn
    split
    · rename_i hlt
      have hline : 4 ≤ t.line := by
        simp only [body, List.getElem?_eq_getElem hlt] at hend
        have := List.getElem?_eq_none_iff.1 hend
        simp at this
        omega
      refine ⟨?_, h.2⟩
      have hc := h.1
      rw [if_pos hline] at hc
      simpa [hl] using hc
    · rename_i hge
      have hc := h.1
      change s.log.lh.length ≤ s.installed
      split at hc <;> omega
  | clear => cases hn
  | eraseHead =>
    cases hn
    exact h
  | finished => cases hn

theorem Stage.fits_next {c c' : CommitPc} (h : Stage log s t c)
    (hend : (body log s.log.lh c)[t.line]? = none)
    (hn : Log.nextCommit s.log.lh.length c = some c') :
    (c' = .start ∨ c' = .writeLog 0) ∨ s.log.lh.length < LOGSIZE := by
  rcases h.fits with ⟨rfl | rfl, hl, -⟩ | hlt
  · cases hn
    split
    · exact .inl (.inr rfl)
    · right
      simp only [LOGSIZE, MAXOPBLOCKS]
      omega
  · right
    rw [hl] at hend
    cases hb : s.log.lh with
    | nil => decide
    | cons b bs => simp [body, hb] at hend
  · exact .inr hlt

structure Booted (s : State P) : Prop where
  log : s.log = Log.init P
  threads : ∀ p, s.thr p = ⟨[], [], [], .ready, 0⟩
  order : ∀ i, i ∈ s.cache.order
  free : ∀ i, (s.cache.buf i).refcnt = 0 ∧ (s.cache.buf i).owner = none ∧
    (s.cache.buf i).dirty = false
  unique : ∀ i j b, s.cache.Caches i ROOTDEV b → s.cache.Caches j ROOTDEV b → i = j
  clean : ∀ i, (s.cache.buf i).dev = ROOTDEV → (s.cache.buf i).valid = true →
    (s.cache.buf i).data = s.cache.disk (s.cache.buf i).blockno
  stored : s.stored = s.cache.disk
  installed : s.installed = 0

def boot (P : Type) (d : ℕ → Block) : State P :=
  ⟨Log.init P, binit d, fun _ => ⟨[], [], [], .ready, 0⟩, none, d, 0⟩

theorem booted_boot (d : ℕ → Block) : Booted (boot P d) where
  log := rfl
  threads := fun _ => rfl
  order := by simp [boot, binit]
  free := fun _ => ⟨rfl, rfl, rfl⟩
  unique := by
    intro i j b hi
    exact absurd hi.1 (by simp [boot, binit])
  clean := by
    intro i hd
    exact absurd hd (by simp [boot, binit])
  stored := rfl
  installed := rfl

variable [DecidableEq P]

theorem fill_of_owner {c : Cache P} (ho : (c.buf i).owner = some p) :
    ∃ c', c.fill p i = .ok c' := by
  unfold Cache.fill Cache.iderw
  by_cases hv : (c.buf i).valid = true
  · exact ⟨c, by rw [if_pos hv]⟩
  · simp only [hv, ho, ne_eq, not_true_eq_false, if_false, Bool.false_eq_true, false_and]
    split <;> exact ⟨_, rfl⟩

theorem Move.caches {t : State P} (h : Move log s p t) (hc : s.cache.Caches i ROOTDEV b) :
    t.cache.Caches i ROOTDEV b ∨ ((s.cache.buf i).refcnt = 0 ∧ (s.cache.buf i).dirty = false) ∧
      t.cache.disk = s.cache.disk ∧ t.stored = s.stored := by
  have hset : ∀ (j : Fin NBUF) (x : Buf P), x.dev = (s.cache.buf j).dev →
      x.blockno = (s.cache.buf j).blockno → (s.cache.set j x).Caches i ROOTDEV b := by
    intro j x hd hb
    unfold Cache.Caches
    by_cases hij : i = j
    · subst hij
      rw [buf_set_self, hd, hb]
      exact hc
    · rw [buf_set_of_ne _ _ hij]
      exact hc
  cases h with
  | get b' j c hio ha hb =>
    cases hb with
    | hit => exact .inl (hset _ _ (by rfl) (by rfl))
    | recycle hmiss href hd =>
      by_cases hij : i = j
      · subst hij
        exact .inr ⟨⟨href, hd⟩, rfl, rfl⟩
      · left
        change (s.cache.set j _).Caches i ROOTDEV b
        rw [Cache.Caches, buf_set_of_ne _ _ hij]
        exact hc
  | fill b' j c hio hf => exact .inl (((fill_sameUse hf).caches ..).2 hc)
  | unref j hio =>
    left
    change (s.cache.unref j).Caches i ROOTDEV b
    rw [Cache.Caches, unref_buf]
    exact hset _ _ (by rfl) (by rfl)
  | bwrite c r j cache hio hpc hins hr hw =>
    exact .inl (((bwrite_sameUse hw).caches ..).2 hc)
  | panic => exact .inl hc
  | test => exact .inl hc
  | logStep => exact .inl hc
  | commit => exact .inl hc
  | _ => exact .inl (hset _ _ (by rfl) (by rfl))

variable [Fintype P] {j : Fin NBUF}

section
variable (h : Inv log s)
include h

variable {c : CommitPc}

section
variable (hpc : s.log.pc p = .committing c)
include hpc

theorem Inv.writing_iff {q : P}
    (hw : Writing log s q j) : ∃ r, (body log s.log.lh c)[(s.thr p).line]? = some (.bwrite r) ∧
      (s.thr p).regs[r]? = some j := by
  obtain ⟨c', r, hc', hins, hr⟩ := hw
  obtain rfl := h.group.committer_unique hc' hpc
  cases hc'.symm.trans hpc
  exact ⟨r, hins, hr⟩

theorem Inv.not_writing {x : Option Instr} (hins : (body log s.log.lh c)[(s.thr p).line]? = x)
    (hx : ∀ r, x ≠ some (.bwrite r)) (q : P) (k : Fin NBUF) : ¬Writing log s q k := by
  intro hq
  obtain ⟨r, hins', -⟩ := h.writing_iff hpc hq
  exact hx r (hins.symm.trans hins')

theorem Inv.other_idle (q : P) (c' : CommitPc) (hq : q ≠ p) : s.log.pc q ≠ .committing c' :=
  fun hc' => hq (h.group.committer_unique hc' hpc)

theorem Inv.of_statement {x : Instr} (hins : (body log s.log.lh c)[(s.thr p).line]? = some x)
    (hx : ∀ r, x.regs r = r) (hio : (s.thr p).io = .ready) (hline : (s.thr p).line ≠ 0)
    (hthr : s'.thr = s.thr) (hlog : s'.log = s.log) (hi : i ∈ (s.thr p).regs)
    (hblk : (s'.cache.buf i).blockno = (s.cache.buf i).blockno)
    (hvalid : (s'.cache.buf i).valid = true) (hother : ∀ j, j ≠ i → s'.cache.buf j = s.cache.buf j)
    (hown : Owned (s'.setThr p { s.thr p with line := (s.thr p).line + 1 }))
    (hsh : Shared log (s'.setThr p { s.thr p with line := (s.thr p).line + 1 }))
    (hpoint : AtPoint log s' { s.thr p with line := (s.thr p).line + 1 } c) :
    Inv log (s'.setThr p { s.thr p with line := (s.thr p).line + 1 }) := by
  have hloc := h.locals p
  have hst := hloc.stage c hpc
  have hbufs : ∀ j, (s.cache.buf j).valid = true →
      (s'.cache.buf j).blockno = (s.cache.buf j).blockno ∧ (s'.cache.buf j).valid = true := by
    intro j hj
    by_cases hji : j = i
    · subst hji
      exact ⟨hblk, hvalid⟩
    · rw [hother j hji]
      exact ⟨rfl, hj⟩
  refine h.of_setThr hthr (hlog ▸ h.group) hown hsh ?_ (fun q _ => .inl (by rw [hlog])) ?_
    (fun q c' hq hc' => absurd hc' (h.other_idle hpc q c' hq))
  · rw [hlog]
    constructor
    · intro j hj
      obtain ⟨hh, hv⟩ := hloc.held j hj
      rw [(hbufs j hv).1]
      exact ⟨hh, (hbufs j hv).2⟩
    · exact hloc.unlogged
    · rintro b j (hg | hg) <;> simp [hio] at hg
    · intro j hj
      simp [hio] at hj
    · exact fun hno => absurd hpc (hno c)
    intro c' hc'
    cases hpc.symm.trans hc'
    refine hst.advance hins rfl (by rw [hlog]) ?_ ?_ (.inl hline) hpoint
    · rw [hx]
      exact List.map_congr_left fun j hj => (hbufs j (hst.valid j hj)).1
    · exact fun j hj => (hbufs j (hst.valid j hj)).2
  · intro q j hq hj
    rw [hother j (h.owned.ne_of_locks hq (mem_locks_of_regs hi) hj)]
    exact .refl _

end

section
variable (hsize : LOGSIZE ≤ log.size)
include hsize

theorem Inv.log_copy {tail : ℕ}
    (hpc : s.log.pc p = .committing (.install tail)) (hb : s.log.lh[tail]? = some b) {x : Instr}
    (hins : (body log s.log.lh (.install tail))[(s.thr p).line]? = some x) (hx : ∀ r, x ≠ .bwrite r)
    (hj : j ∈ (s.thr p).regs) (hblk : (s.cache.buf j).blockno = log.start + tail + 1)
    (hfits : s.log.lh.length < LOGSIZE) : (s.cache.buf j).data = s.stored b := by
  have hst := (h.locals p).stage _ hpc
  have hlt := (List.getElem?_eq_some_iff.1 hb).1
  have hnot : ¬log.Home (s.cache.buf j).blockno := by
    rw [hblk]
    exact Area.notHome (by omega) (by omega)
  have hdev := h.owned.dev_of_mem (mem_refs_of_regs hj)
  have hdisk := (h.shared.copies j hdev (hst.valid j hj) hnot).resolve_right ?_
  · rw [hdisk, hblk]
    exact hst.point.2 tail b hlt hb
  · exact not_exists.2 fun q => h.not_writing hpc hins (fun r hr => hx r (Option.some.inj hr)) q j

theorem Inv.install_data {tail dst src : ℕ} (hpc : s.log.pc p = .committing (.install tail))
    (hins : (body log s.log.lh (.install tail))[(s.thr p).line]? = some (.memmove dst src))
    (hi : (s.thr p).regs[dst]? = some i) (hj : (s.thr p).regs[src]? = some j) :
    (s.cache.buf j).data = (s.cache.buf i).data := by
  have hst := (h.locals p).stage _ hpc
  obtain ⟨hk, tail', b, hb, hregs, ⟨hw, -⟩ | ⟨hw, rfl, rfl⟩⟩ := body_memmove hins <;> cases hw
  have hmi := mem_of_getElem? hi
  have hbi := hst.blockno_of_reg hi
  have hbj := hst.blockno_of_reg hj
  rw [hregs] at hbi hbj
  have hblki : (s.cache.buf i).blockno = b := by simpa [eq_comm] using hbi
  have hblkj : (s.cache.buf j).blockno = log.start + tail + 1 := by simpa [eq_comm] using hbj
  have hhome : log.Home (s.cache.buf i).blockno :=
    hblki ▸ h.shared.homes b (mem_of_getElem? hb)
  rw [h.log_copy hsize hpc hb hins (by simp) (mem_of_getElem? hj) hblkj
    (hst.fits_of_line (by omega)), ← hblki]
  exact (h.shared.content i (h.owned.dev_of_mem (mem_refs_of_regs hmi)) (hst.valid i hmi)
    hhome).symm

theorem Inv.memmove {dst src : ℕ}
    (hio : (s.thr p).io = .ready) (hpc : s.log.pc p = .committing c)
    (hins : (body log s.log.lh c)[(s.thr p).line]? = some (.memmove dst src))
    (hi : (s.thr p).regs[dst]? = some i) (hj : (s.thr p).regs[src]? = some j) :
    Inv log ((s.setBuf i { s.cache.buf i with data := (s.cache.buf j).data }).setThr p
      { s.thr p with line := (s.thr p).line + 1 }) := by
  have hst := (h.locals p).stage c hpc
  have hmi : Move log s p ((s.setBuf i
      { s.cache.buf i with data := (s.cache.buf j).data }).setThr p
        { s.thr p with line := (s.thr p).line + 1 }) :=
    .copy c _ i _ hio hpc hins (.memmove dst src i j hi hj)
  have hown := h.owned.move hmi
  obtain ⟨hk, tail, b, hb, hregs, hwhere⟩ := body_memmove hins
  have hfits := hst.fits_of_line (by omega)
  have hlt := (List.getElem?_eq_some_iff.1 hb).1
  have hmi := mem_of_getElem? hi
  have hmj := mem_of_getElem? hj
  have hbi := hst.blockno_of_reg hi
  have hbj := hst.blockno_of_reg hj
  rw [hregs] at hbi hbj
  have hnw := h.not_writing hpc hins fun r hr => by cases hr
  have hhome : log.Home b := h.shared.homes b (mem_of_getElem? hb)
  have hother : ∀ k, k ≠ i → (s.setBuf i { s.cache.buf i with
      data := (s.cache.buf j).data }).cache.buf k = s.cache.buf k :=
    fun k hk => buf_set_of_ne _ _ hk
  have hself : (s.setBuf i { s.cache.buf i with data := (s.cache.buf j).data }).cache.buf i =
      { s.cache.buf i with data := (s.cache.buf j).data } := buf_set_self ..
  rcases hwhere with ⟨rfl, rfl, rfl, hnext⟩ | ⟨rfl, rfl, rfl⟩
  · -- `write_log` copies the cached block to the log block.
    have hblki : (s.cache.buf i).blockno = log.start + tail + 1 := by simpa [eq_comm] using hbi
    have hblkj : (s.cache.buf j).blockno = b := by simpa [eq_comm] using hbj
    have hnot : ¬log.Home (s.cache.buf i).blockno := by
      rw [hblki]
      exact Area.notHome (by omega) (by omega)
    have hdata : (s.cache.buf j).data = s.stored b := by
      rw [← hblkj] at hhome ⊢
      exact h.shared.content j (h.owned.dev_of_mem (mem_refs_of_regs hmj)) (hst.valid j hmj) hhome
    refine h.of_statement hpc hins (fun _ => rfl) hio (by omega) rfl rfl hmi (by rw [hself])
      (by rw [hself]; exact hst.valid i hmi) hother hown ?_ ?_
    · refine h.shared.copy ⟨rfl, rfl, rfl, rfl⟩ rfl (setThr_unlogged rfl rfl) hself hother hnot
        ⟨p, _, 0, hpc, ?_, ?_⟩ hnw
      · rw [setThr_self]
        exact hnext
      · rw [setThr_self]
        exact hi
    · refine ⟨hst.point.1, ?_, ?_⟩
      · have hc := hst.point.2.1
        simp only [hk] at hc ⊢
        exact hc
      intro _ i' b' hi' hb'
      cases hi.symm.trans hi'
      cases hb.symm.trans hb'
      rw [hself]
      exact hdata
  · -- `install_trans` copies the log block to the cached block, which has the same contents.
    have hdata := h.install_data hsize hpc hins hi hj
    refine h.of_statement hpc hins (fun _ => rfl) hio (by omega) rfl rfl hmi (by rw [hself])
      (by rw [hself]; exact hst.valid i hmi) hother hown ?_ ?_
    · refine h.shared.frame ⟨rfl, rfl, rfl, rfl⟩ ?_ h.shared.calm (setThr_unlogged rfl rfl)
        fun q k hq => absurd hq (hnw q k)
      intro k
      left
      exact sameView_set (by exact ⟨rfl, rfl, rfl, rfl, hdata⟩) k
    · refine ⟨?_, hst.point.2⟩
      have hc := hst.point.1
      simp only [hk] at hc ⊢
      exact hc

end

theorem Inv.fillHead (hio : (s.thr p).io = .ready)
    (hpc : s.log.pc p = .committing c)
    (hins : (body log s.log.lh c)[(s.thr p).line]? = some .fillHead)
    (hi : (s.thr p).regs[0]? = some i) (data : Block)
    (hown : Owned ((s.setBuf i { s.cache.buf i with data := data }).setThr p
      { s.thr p with line := (s.thr p).line + 1 })) :
    Inv log ((s.setBuf i { s.cache.buf i with data := data }).setThr p
      { s.thr p with line := (s.thr p).line + 1 }) := by
  have hst := (h.locals p).stage c hpc
  obtain ⟨hk, hc, hregs, hnext⟩ := body_fillHead hins
  have hmi := mem_of_getElem? hi
  have hbi := hst.blockno_of_reg hi
  rw [hregs] at hbi
  have hblki : (s.cache.buf i).blockno = log.start := by simpa [eq_comm] using hbi
  have hnot : ¬log.Home (s.cache.buf i).blockno := by
    rw [hblki]
    exact Area.notHome (Nat.le_refl _) (Nat.lt_add_of_pos_right log.pos)
  have hnw := h.not_writing hpc hins fun r hr => by cases hr
  have hself : (s.setBuf i { s.cache.buf i with data := data }).cache.buf i =
      { s.cache.buf i with data := data } := buf_set_self ..
  have hother : ∀ k, k ≠ i → (s.setBuf i { s.cache.buf i with data := data }).cache.buf k =
      s.cache.buf k := fun k hk => buf_set_of_ne _ _ hk
  refine h.of_statement hpc hins (fun _ => rfl) hio (by omega) rfl rfl hmi (by rw [hself])
    (by rw [hself]; exact hst.valid i hmi) hother hown ?_ ?_
  · refine h.shared.copy ⟨rfl, rfl, rfl, rfl⟩ rfl (setThr_unlogged rfl rfl) hself hother hnot
      ⟨p, c, 0, hpc, ?_, ?_⟩ hnw
    · rw [setThr_self]
      exact hnext
    · rw [setThr_self]
      exact hi
  · rcases hc with rfl | rfl <;> exact hst.point

theorem Inv.bwrite (hsize : LOGSIZE ≤ log.size) {r : ℕ}
    {cache : Cache P} (hio : (s.thr p).io = .ready) (hpc : s.log.pc p = .committing c)
    (hins : (body log s.log.lh c)[(s.thr p).line]? = some (.bwrite r))
    (hr : (s.thr p).regs[r]? = some i) (hw : s.cache.bwrite p i = .ok cache) :
    Inv log ({ s with cache := cache, installed := installedAfter c s.installed }.setThr p
      { s.thr p with line := (s.thr p).line + 1 }) := by
  have hst := (h.locals p).stage c hpc
  have hmi : Move log s p ({ s with
      cache := cache, installed := installedAfter c s.installed }.setThr p
        { s.thr p with line := (s.thr p).line + 1 }) :=
    .bwrite c r i cache hio hpc hins hr hw
  have hown := h.owned.move hmi
  have hmem := mem_of_getElem? hr
  have hdev := h.owned.dev_of_mem (mem_refs_of_regs hmem)
  have hv := hst.valid i hmem
  have hbi := hst.blockno_of_reg hr
  have hwr : ∀ q k, Writing log s q k → k = i := by
    intro q k hq
    obtain ⟨r', hins', hr'⟩ := h.writing_iff hpc hq
    cases hins.symm.trans hins'
    exact Option.some.inj (hr'.symm.trans hr)
  rw [bwrite_eq_ok hw] at hown ⊢
  have hself : (s.cache.set i { s.cache.buf i with dirty := false, valid := true }).buf i =
      { s.cache.buf i with dirty := false, valid := true } := buf_set_self ..
  have hother : ∀ k, k ≠ i → (s.cache.set i
      { s.cache.buf i with dirty := false, valid := true }).buf k = s.cache.buf k :=
    fun k hk => buf_set_of_ne _ _ hk
  rcases body_bwrite hins with ⟨tail, b, rfl, hb, hk, rfl, hregs⟩ |
    ⟨tail, b, rfl, hb, hk, rfl, hregs⟩ | ⟨hc, hk, rfl, hregs⟩
  · -- `write_log`: the copy of block `b` reaches the log.
    rw [hregs] at hbi
    have hblki : (s.cache.buf i).blockno = log.start + tail + 1 := by simpa [eq_comm] using hbi
    have hlt := (List.getElem?_eq_some_iff.1 hb).1
    have hfits := hst.fits_of_line (by omega)
    refine h.of_statement hpc hins (fun _ => rfl) hio (by omega) rfl rfl hmem (by rw [hself])
      (by rw [hself]) hother hown ?_ ?_
    · refine h.shared.bwriteLog h.owned.unique rfl rfl rfl rfl (setThr_unlogged rfl rfl) rfl hself
        hother hdev hv ?_ hwr
      rw [hblki]
      exact Area.notHome (by omega) (by omega)
    obtain ⟨hinst, hc, hdata⟩ := hst.point
    refine ⟨hinst, ?_, fun hl => ?_⟩
    · intro j b' hj hb'
      simp only [hk] at hc hj
      change update s.cache.disk (s.cache.buf i).blockno (s.cache.buf i).data _ = _
      by_cases hjt : j = tail
      · subst hjt
        cases hb.symm.trans hb'
        rw [hblki, update_self]
        exact hdata hk i b hr hb
      · rw [update_of_ne (by rw [hblki]; omega)]
        exact hc j b' (by simp at hj ⊢; omega) hb'
    · simp only [hk] at hl
      omega
  · -- `install_trans`: block `b` reaches its home location.
    rw [hregs] at hbi
    have hblki : (s.cache.buf i).blockno = b := by simpa [eq_comm] using hbi
    have hfits := hst.fits_of_line (by omega)
    have hinst : s.installed = tail := by
      have hp := hst.point.1
      simpa [hk] using hp
    refine h.of_statement hpc hins (fun _ => rfl) hio (by omega) rfl rfl hmem (by rw [hself])
      (by rw [hself]) hother hown ?_ ?_
    · refine h.shared.bwriteHome h.owned.unique h.group.nodup rfl rfl ?_ rfl (h.group.flag hpc)
        (setThr_unlogged rfl rfl) rfl hself hother hdev hv hwr
      rw [hinst, hb, hblki]
    refine ⟨?_, ?_⟩
    · simp [hk, hinst, installedAfter]
    intro j b' hj hb'
    change update s.cache.disk (s.cache.buf i).blockno (s.cache.buf i).data _ = _
    have hj' : j < s.log.lh.length := hj
    have hhome := h.shared.homes b (mem_of_getElem? hb)
    have hne : log.start + j + 1 ≠ (s.cache.buf i).blockno := by
      rw [hblki]
      rintro rfl
      exact Area.notHome (by omega) (by omega) hhome
    rw [update_of_ne hne]
    exact hst.point.2 j b' hj hb'
  · -- `write_head`: the header block.
    rw [hregs] at hbi
    have hblki : (s.cache.buf i).blockno = log.start := by simpa [eq_comm] using hbi
    have hinst : installedAfter c s.installed = s.installed := by
      rcases hc with rfl | rfl <;> rfl
    rw [hinst] at hown ⊢
    refine h.of_statement hpc hins (fun _ => rfl) hio (by omega) rfl rfl hmem (by rw [hself])
      (by rw [hself]) hother hown ?_ ?_
    · refine h.shared.bwriteLog h.owned.unique rfl rfl rfl rfl (setThr_unlogged rfl rfl) rfl hself
        hother hdev hv ?_ hwr
      rw [hblki]
      exact Area.notHome (Nat.le_refl _) (Nat.lt_add_of_pos_right log.pos)
    rcases hc with rfl | rfl
    · refine ⟨hst.point.1, ?_⟩
      intro j b' hj hb'
      change update s.cache.disk (s.cache.buf i).blockno (s.cache.buf i).data _ = _
      rw [update_of_ne (by rw [hblki]; omega)]
      exact hst.point.2 j b' hj hb'
    · exact hst.point

theorem Inv.commit {l : Log.State P}
    (hio : (s.thr p).io = .ready) (hpc : s.log.pc p = .committing c)
    (hend : (body log s.log.lh c)[(s.thr p).line]? = none)
    (hm : Log.Move log.size s.log p .run l) :
    Inv log ({ s with log := l, installed := if c = CommitPc.clear then 0 else s.installed }.setThr
      p { s.thr p with line := 0 }) := by
  have hloc := h.locals p
  have hst := hloc.stage c hpc
  have hregs := hst.regs_eq_nil hend
  have hmi : Move log s p ({ s with log := l, installed :=
      if c = CommitPc.clear then 0 else s.installed }.setThr p { s.thr p with line := 0 }) :=
    .commit c l hio hpc hend hm
  have hown := h.owned.move hmi
  have hnw := h.not_writing hpc hend fun r hr => by cases hr
  have hunlog : (s.thr p).unlogged = [] := by
    refine List.eq_nil_iff_forall_not_mem.2 fun j hj => (hloc.unlogged j hj).2 ?_
    rw [hpc]
    rfl
  have hlocal : ∀ {s' : State P} {pc : Log.Pc}, s'.cache = s.cache →
      (∀ c', pc = .committing c' → Stage log s' { s.thr p with line := 0 } c') →
      Local log s' pc { s.thr p with line := 0 } := by
    intro s' pc hc hstage
    constructor
    · rw [hc]
      exact hloc.held
    · intro j hj
      change j ∈ (s.thr p).unlogged at hj
      rw [hunlog] at hj
      cases hj
    · rintro b j (hg | hg) <;> simp [hio] at hg
    · intro j hj
      simp [hio] at hj
    · exact fun _ => ⟨hregs, rfl⟩
    · exact hstage
  have hstage : ∀ {s' : State P} {c' : CommitPc},
      ((c' = .start ∨ c' = .writeLog 0) ∨ s'.log.lh.length < LOGSIZE) →
      AtPoint log s' { s.thr p with line := 0 } c' →
      Stage log s' { s.thr p with line := 0 } c' := by
    intro s' c' hfits hpoint
    refine ⟨Nat.zero_le _, ?_, ?_, hfits.imp_left fun hc => ⟨hc, rfl, hio⟩, hpoint⟩
    · change (s.thr p).regs.map _ = _
      rw [hregs]
      rfl
    · change ∀ j ∈ (s.thr p).regs, _
      rw [hregs]
      intro j hj
      cases hj
  refine h.of_setThr (by rfl) (h.group.move hm) hown ?_ ?_ (fun q hq => hm.others hq)
    (fun _ _ _ _ => .refl _) (fun q c' hq hc' => absurd hc' (h.other_idle hpc q c' hq))
  · cases hm with
    | commit d c' hp hn =>
      cases hpc.symm.trans hp
      have hnc : c ≠ .clear := by
        rintro rfl
        cases hn
      rw [if_neg hnc]
      exact h.shared.frame ⟨rfl, rfl, rfl, rfl⟩ (fun j => .inl (.refl _)) h.shared.calm
        (setThr_unlogged rfl rfl) fun q k hq => absurd hq (hnw q k)
    | clear hp =>
      cases hpc.symm.trans hp
      exact h.shared.clear hst.point rfl rfl rfl rfl (setThr_unlogged rfl rfl) hnw
    | finish hp =>
      cases hpc.symm.trans hp
      exact h.shared.frame ⟨rfl, rfl, rfl, rfl⟩ (fun j => .inl (.refl _)) (fun _ => hst.point)
        (setThr_unlogged rfl rfl) fun q k hq => absurd hq (hnw q k)
    | _ => simp_all
  · refine hlocal rfl fun c' hc' => ?_
    cases hm with
    | commit d e hp hn =>
      cases hpc.symm.trans hp
      have hce : c' = e := by simpa [eq_comm] using hc'
      subst hce
      have hnc : c ≠ .clear := by
        rintro rfl
        cases hn
      rw [if_neg hnc]
      refine hstage (hst.fits_next hend hn) ?_
      exact (hst.point.next hend rfl hn).frame ⟨rfl, rfl, rfl, rfl⟩ rfl rfl fun _ _ => .refl _
    | clear hp =>
      cases hpc.symm.trans hp
      have hce : c' = .eraseHead := by simpa [Log.clearLh, eq_comm] using hc'
      subst hce
      exact hstage (.inr (show ([] : List ℕ).length < LOGSIZE by decide)) rfl
    | finish hp =>
      simp [Log.endCommit] at hc'
    | _ => simp_all

theorem Inv.move (hsize : LOGSIZE ≤ log.size) {t : State P} (hm : Move log s p t) : Inv log t := by
  have hown : Owned t := h.owned.move hm
  cases hm with
  | panic e =>
    refine ⟨h.group, hown, ?_, fun q => ?_⟩
    · exact h.shared.frame ⟨rfl, rfl, rfl, rfl⟩ (fun j => .inl (.refl _)) h.shared.calm
        (fun _ => rfl) fun _ _ hq => hq
    · exact (h.locals q).frame (.inl rfl) (fun _ _ => .refl _) fun _ _ => ⟨rfl, rfl, rfl, rfl⟩
  | get b i c hio ha hb => exact h.get hsize hio ha hb
  | acquire b i hio ho => exact h.acquire hio ho
  | fill b i c hio hc => exact h.fill hio hc
  | unlock i t hio hd ho => exact h.unlock hio hd ho
  | unref i hio => exact h.unref hio
  | store i data e w hio hpc hi => exact h.store hio hpc hi
  | test i l e w hio hpc hi hl => exact h.test hio hpc hi hl
  | append i l hio hl => exact h.append hio hl
  | logStep a l hio hc ht hu ha hl => exact h.logStep hio hc ht hu ha hl
  | copy c ins i data hio hpc hins hcopy =>
    cases hcopy with
    | memmove dst src i j hi hj => exact h.memmove hsize hio hpc hins hi hj
    | fillHead i hi => exact h.fillHead hio hpc hins hi _ hown
  | bwrite c r i cache hio hpc hins hr hw => exact h.bwrite hsize hio hpc hins hr hw
  | commit c l hio hpc hend hl => exact h.commit hio hpc hend hl

end

theorem inv_exec {s t : State P} (hsize : LOGSIZE ≤ log.size) (h : Inv log s)
    {tr : List (P × Act)} (hr : exec (step log) s tr = some t) : Inv log t :=
  exec_invariant (Inv log) h (fun _ _ _ hi hl => hi.move hsize (step_move hl)) hr

theorem Booted.inv (h : Booted s) : Inv log s where
  group := by
    rw [h.log]
    exact Log.inv_init P
  owned := by
    refine ⟨h.order, ?_, ?_, h.unique, ?_, ?_⟩
    · intro i
      simp [(h.free i).1, h.threads, Thread.refs, Io.refs]
    · intro p i
      simp [(h.free i).2.1, h.threads, Thread.locks, Io.locks]
    · intro i hpos
      rw [(h.free i).1] at hpos
      cases hpos
    · rintro p b i (ha | ha) <;> simp [h.threads] at ha
  shared := by
    have hlh : s.log.lh = [] := by
      rw [h.log]
      rfl
    have hpin : s.pinned = [] := by rw [State.pinned, hlh, drop_nil]
    constructor
    · simp [hlh]
    · intro i hd hv _
      rw [h.stored]
      exact h.clean i hd hv
    · simp [hpin]
    · intro i hd
      rw [(h.free i).2.2] at hd
      cases hd
    · exact fun _ => h.installed
    · intro b _
      rw [h.stored]
      exact .inl rfl
    · intro i hd hv _
      exact .inl (h.clean i hd hv)
  locals := by
    intro p
    have hpc : s.log.pc p = .idle := by
      rw [h.log]
      rfl
    rw [hpc, h.threads]
    constructor
    · simp
    · simp
    · rintro b i (ha | ha) <;> cases ha
    · simp
    · simp
    · intro c hc
      cases hc

structure Coherent (log : Area) (s : State P) : Prop where
  bread : ∀ p b i t, (s.thr p).io = .filling b i → log.Home b → step log s (p, .run) = some t →
    t.panicked = none ∧ t.cache.Caches i ROOTDEV b ∧ (t.cache.buf i).owner = some p ∧
      (t.cache.buf i).data = t.stored b
  pinned : ∀ b ∈ s.log.lh.drop s.installed, ∃ i, s.cache.Caches i ROOTDEV b ∧
    (s.cache.buf i).valid = true ∧ (s.cache.buf i).dirty = true ∧
    (s.cache.buf i).data = s.stored b
  recycled : ∀ l t i b, step log s l = some t → s.cache.Caches i ROOTDEV b →
    ¬t.cache.Caches i ROOTDEV b → log.Home b → t.cache.disk b = t.stored b
  install : ∀ p tail dst src t, s.log.pc p = .committing (.install tail) →
    (s.thr p).io = .ready →
    (body log s.log.lh (.install tail))[(s.thr p).line]? = some (.memmove dst src) →
    step log s (p, .run) = some t → ∀ i, (t.cache.buf i).data = (s.cache.buf i).data

theorem Inv.coherent (h : Inv log s) (hsize : LOGSIZE ≤ log.size) : Coherent log s where
  bread := by
    intro p b i t hio hb hs
    have hlock : i ∈ (s.thr p).locks := by
      refine List.mem_append_right _ ?_
      simp [hio, Io.locks]
    have howner := h.owned.owner_of_mem hlock
    obtain ⟨c, hc⟩ := fill_of_owner howner
    have huse := fill_sameUse hc
    have hcaches : c.Caches i ROOTDEV b := (huse.caches ..).2
      ⟨h.owned.dev_of_mem (mem_refs_of_locks hlock), h.owned.asked p b i (.inr hio)⟩
    have hv : (c.buf i).valid = true := by
      rcases fill_eq_ok hc (fun hd => (h.shared.dirty i hd).2.1) with ⟨hv, rfl⟩ | ⟨-, rfl⟩
      · exact hv
      · rw [buf_set_self]
    simp only [step, hio, fillBlock, hc] at hs
    split at hs
    · cases hs
    rename_i hp
    have hinv := h.fill hio hc
    cases hs
    refine ⟨Option.not_isSome_iff_eq_none.1 fun he => hp (.inl he), hcaches,
      (huse.owner i).trans howner, ?_⟩
    have hdata : log.Home (c.buf i).blockno → (c.buf i).data = s.stored (c.buf i).blockno :=
      hinv.shared.content i hcaches.1 hv
    rw [hcaches.2] at hdata
    exact hdata hb
  pinned := by
    intro b hb
    obtain ⟨i, hc, hd⟩ := h.shared.pinned b hb
    have hv := (h.shared.dirty i hd).2.1
    have hhome := h.shared.homes b (List.mem_of_mem_drop hb)
    refine ⟨i, hc, hv, hd, ?_⟩
    rw [← hc.2] at hhome ⊢
    exact h.shared.content i hc.1 hv hhome
  recycled := by
    intro l t i b hs hc hnc hb
    obtain ⟨⟨href, hd⟩, hdisk, hstored⟩ := ((step_move hs).caches hc).resolve_left hnc
    rw [hdisk, hstored]
    refine (h.shared.fresh b hb).resolve_right ?_
    rintro ⟨j, hj, -, hmod⟩
    obtain rfl := h.owned.unique j i b hj hc
    rcases hmod with hmod | ⟨q, hq⟩
    · rw [hd] at hmod
      cases hmod
    · exact h.notMem_unlogged href hq
  install := by
    intro p tail dst src t hpc hio hins hs i
    simp only [step, hio, readyStep, hpc, hins, execInstr] at hs
    split at hs
    · cases hs
    obtain ⟨j, hj, hs⟩ := Option.bind_eq_some_iff.1 hs
    obtain ⟨k, hk, hs⟩ := Option.bind_eq_some_iff.1 hs
    cases hs
    exact forall_set (Q := fun i x => x.data = (s.cache.buf i).data)
      (by exact h.install_data hsize hpc hins hj hk) (fun _ _ => rfl) i

theorem cache_coherent {s₀ : State P} (hsize : LOGSIZE ≤ log.size) (h₀ : Booted s₀)
    {tr : List (P × Act)} (hr : exec (step log) s₀ tr = some s) : Coherent log s :=
  (inv_exec hsize h₀.inv hr).coherent hsize

def installRun : List (Fin 1 × Act) :=
  [(0, .beginOp), (0, .run), (0, .bread 60), (0, .run), (0, .run), (0, .store 0 fun _ => 7),
    (0, .logWrite 0), (0, .run), (0, .brelse 0), (0, .run), (0, .endOp)] ++
    List.replicate 29 (0, .run)

theorem cache_coherent_installRun :
    ∃ s, exec (step Log.mkfsArea) (boot (Fin 1) fun _ => zeros) installRun = some s ∧
      (s.log.pc 0 = .committing (.install 0) ∧ (s.thr 0).line = 2 ∧ s.log.lh = [60]) ∧
      Coherent Log.mkfsArea s := by
  obtain ⟨s, hs, hend⟩ := exec_exists (step Log.mkfsArea) (boot (Fin 1) fun _ => zeros) installRun
    (fun s => s.log.pc 0 = .committing (.install 0) ∧ (s.thr 0).line = 2 ∧ s.log.lh = [60])
    (by decide +kernel)
  exact ⟨s, hs, hend, cache_coherent (Nat.le_refl _) (booted_boot _) hs⟩

end Xv6.Bio
