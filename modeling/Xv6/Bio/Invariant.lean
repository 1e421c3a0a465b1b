import Xv6.Bio.Ownership

namespace Xv6.Bio

open Lib
open Log (Area CommitPc)

variable {P : Type}

def State.pinned (s : State P) : List ℕ := s.log.lh.drop s.installed

def Copied (log : Area) (s : State P) (n : ℕ) : Prop :=
  ∀ j b, j < n → s.log.lh[j]? = some b → s.cache.disk (log.start + j + 1) = s.stored b

def Instr.regs (r : List ℕ) : Instr → List ℕ
  | .bread b => r ++ [b]
  | .brelse k => r.eraseIdx k
  | _ => r

def regBlocks (ins : List Instr) : List ℕ := ins.foldl Instr.regs []

def AtPoint (log : Area) (s : State P) (t : Thread) : CommitPc → Prop
  | .start => s.installed = 0
  | .writeLog tail => s.installed = 0 ∧ Copied log s (tail + if 4 ≤ t.line then 1 else 0) ∧
      (t.line = 3 → ∀ i b, t.regs[0]? = some i → s.log.lh[tail]? = some b →
        (s.cache.buf i).data = s.stored b)
  | .writeHead => s.installed = 0 ∧ Copied log s s.log.lh.length
  | .install tail => s.installed = tail + (if 4 ≤ t.line then 1 else 0) ∧
      Copied log s s.log.lh.length
  | .clear => s.log.lh.length ≤ s.installed
  | .eraseHead => s.installed = 0
  | .finished => s.installed = 0

structure Stage (log : Area) (s : State P) (t : Thread) (c : CommitPc) : Prop where
  line : t.line ≤ (body log s.log.lh c).length
  regs : t.regs.map (fun i => (s.cache.buf i).blockno) =
    regBlocks ((body log s.log.lh c).take t.line)
  valid : ∀ i ∈ t.regs, (s.cache.buf i).valid = true
  fits : (c = .start ∨ c = .writeLog 0) ∧ t.line = 0 ∧ t.io = .ready ∨ s.log.lh.length < LOGSIZE
  point : AtPoint log s t c

structure Local (log : Area) (s : State P) (pc : Log.Pc) (t : Thread) : Prop where
  held : ∀ i ∈ t.held, log.Home (s.cache.buf i).blockno ∧ (s.cache.buf i).valid = true
  unlogged : ∀ i ∈ t.unlogged, i ∈ t.held ∧ pc.op ≠ none
  asking : ∀ b i, t.io.Asked b i → Asks log s.log.lh pc t b
  logging : ∀ i, t.io = .logging i → i ∈ t.held ∧ ∃ e w, pc = .tested e w (s.cache.buf i).blockno
  idle : (∀ c, pc ≠ .committing c) → t.regs = [] ∧ t.line = 0
  stage : ∀ c, pc = .committing c → Stage log s t c

def Writing (log : Area) (s : State P) (p : P) (i : Fin NBUF) : Prop :=
  ∃ c r, s.log.pc p = .committing c ∧
    (body log s.log.lh c)[(s.thr p).line]? = some (.bwrite r) ∧ (s.thr p).regs[r]? = some i

def Keeps (s : State P) (i : Fin NBUF) (b : ℕ) : Prop :=
  s.cache.Caches i ROOTDEV b ∧ (s.cache.buf i).valid = true ∧
    ((s.cache.buf i).dirty = true ∨ ∃ p, i ∈ (s.thr p).unlogged)

structure Shared (log : Area) (s : State P) : Prop where
  homes : ∀ b ∈ s.log.lh, log.Home b
  content : ∀ i, (s.cache.buf i).dev = ROOTDEV → (s.cache.buf i).valid = true →
    log.Home (s.cache.buf i).blockno → (s.cache.buf i).data = s.stored (s.cache.buf i).blockno
  pinned : ∀ b ∈ s.pinned, ∃ i, s.cache.Caches i ROOTDEV b ∧ (s.cache.buf i).dirty = true
  dirty : ∀ i, (s.cache.buf i).dirty = true → (s.cache.buf i).dev = ROOTDEV ∧
    (s.cache.buf i).valid = true ∧ (s.cache.buf i).blockno ∈ s.pinned
  calm : s.log.committing = false → s.installed = 0
  fresh : ∀ b, log.Home b → s.cache.disk b = s.stored b ∨ ∃ i, Keeps s i b
  copies : ∀ i, (s.cache.buf i).dev = ROOTDEV → (s.cache.buf i).valid = true →
    ¬log.Home (s.cache.buf i).blockno →
    (s.cache.buf i).data = s.cache.disk (s.cache.buf i).blockno ∨ ∃ p, Writing log s p i

structure Inv [DecidableEq P] [Fintype P] (log : Area) (s : State P) : Prop where
  group : Log.Inv s.log
  owned : Owned s
  shared : Shared log s
  locals : ∀ p, Local log s (s.log.pc p) (s.thr p)

variable {k : ℕ} {x : Instr}

theorem regBlocks_take_succ {ins : List Instr} (h : ins[k]? = some x) :
    regBlocks (ins.take (k + 1)) = x.regs (regBlocks (ins.take k)) := by
  rw [List.take_add_one, h, regBlocks, List.foldl_append]
  rfl

variable {log : Area} {lh : List ℕ} {c : CommitPc}

theorem body_eq_some (h : (body log lh c)[k]? = some x) :
    (∃ tail b, c = .writeLog tail ∧ lh[tail]? = some b ∧ body log lh c =
      [.bread (log.start + tail + 1), .bread b, .memmove 0 1, .bwrite 0, .brelse 1, .brelse 0]) ∨
    (∃ tail b, c = .install tail ∧ lh[tail]? = some b ∧ body log lh c =
      [.bread (log.start + tail + 1), .bread b, .memmove 1 0, .bwrite 1, .brelse 0, .brelse 0]) ∨
    (c = .writeHead ∨ c = .eraseHead) ∧
      body log lh c = [.bread log.start, .fillHead, .bwrite 0, .brelse 0] := by
  cases c with
  | writeLog tail =>
    cases hb : lh[tail]? with
    | none => simp [body, hb] at h
    | some b => exact .inl ⟨tail, b, rfl, hb, by simp [body, hb]⟩
  | install tail =>
    cases hb : lh[tail]? with
    | none => simp [body, hb] at h
    | some b => exact .inr (.inl ⟨tail, b, rfl, hb, by simp [body, hb]⟩)
  | writeHead => exact .inr (.inr ⟨.inl rfl, rfl⟩)
  | eraseHead => exact .inr (.inr ⟨.inr rfl, rfl⟩)
  | _ => simp [body] at h

theorem body_bread {b : ℕ} (h : (body log lh c)[k]? = some (.bread b)) : k ≤ 1 := by
  rcases body_eq_some h with ⟨tail, d, -, -, hb⟩ | ⟨tail, d, -, -, hb⟩ | ⟨-, hb⟩
  all_goals
    rw [hb] at h
    rcases k with _ | _ | _ | _ | _ | _ | k <;> simp at h ⊢

variable {r : ℕ}

theorem body_brelse (h : (body log lh c)[k]? = some (.brelse r)) :
    3 ≤ k ∧ ∀ tail, c = .writeLog tail ∨ c = .install tail → 4 ≤ k := by
  rcases body_eq_some h with ⟨tail, d, -, -, hb⟩ | ⟨tail, d, -, -, hb⟩ | ⟨hc, hb⟩
  all_goals
    rw [hb] at h
    rcases k with _ | _ | _ | _ | _ | _ | k <;> simp at h ⊢
  rcases hc with rfl | rfl <;> simp

theorem body_bwrite (h : (body log lh c)[k]? = some (.bwrite r)) :
    (∃ tail b, c = .writeLog tail ∧ lh[tail]? = some b ∧ k = 3 ∧ r = 0 ∧
      regBlocks ((body log lh c).take k) = [log.start + tail + 1, b]) ∨
    (∃ tail b, c = .install tail ∧ lh[tail]? = some b ∧ k = 3 ∧ r = 1 ∧
      regBlocks ((body log lh c).take k) = [log.start + tail + 1, b]) ∨
    (c = .writeHead ∨ c = .eraseHead) ∧ k = 2 ∧ r = 0 ∧
      regBlocks ((body log lh c).take k) = [log.start] := by
  rcases body_eq_some h with ⟨tail, d, hc, hd, hb⟩ | ⟨tail, d, hc, hd, hb⟩ | ⟨hc, hb⟩
  · refine .inl ⟨tail, d, hc, hd, ?_⟩
    rw [hb] at h ⊢
    rcases k with _ | _ | _ | _ | _ | _ | k <;> simp at h
    subst h
    exact ⟨rfl, rfl, rfl⟩
  · refine .inr (.inl ⟨tail, d, hc, hd, ?_⟩)
    rw [hb] at h ⊢
    rcases k with _ | _ | _ | _ | _ | _ | k <;> simp at h
    subst h
    exact ⟨rfl, rfl, rfl⟩
  refine .inr (.inr ⟨hc, ?_⟩)
  rw [hb] at h ⊢
  rcases k with _ | _ | _ | _ | k <;> simp at h
  subst h
  exact ⟨rfl, rfl, rfl⟩

theorem body_memmove {dst src : ℕ}
    (h : (body log lh c)[k]? = some (.memmove dst src)) : k = 2 ∧ ∃ tail b, lh[tail]? = some b ∧
      regBlocks ((body log lh c).take k) = [log.start + tail + 1, b] ∧
      (c = .writeLog tail ∧ dst = 0 ∧ src = 1 ∧ (body log lh c)[k + 1]? = some (.bwrite 0) ∨
        c = .install tail ∧ dst = 1 ∧ src = 0) := by
  rcases body_eq_some h with ⟨tail, d, hc, hd, hb⟩ | ⟨tail, d, hc, hd, hb⟩ | ⟨hc, hb⟩
  · rw [hb] at h ⊢
    rcases k with _ | _ | _ | _ | _ | _ | k <;> simp at h
    obtain ⟨rfl, rfl⟩ := h
    exact ⟨rfl, tail, d, hd, rfl, .inl ⟨hc, rfl, rfl, rfl⟩⟩
  · rw [hb] at h ⊢
    rcases k with _ | _ | _ | _ | _ | _ | k <;> simp at h
    obtain ⟨rfl, rfl⟩ := h
    exact ⟨rfl, tail, d, hd, rfl, .inr ⟨hc, rfl, rfl⟩⟩
  · rw [hb] at h
    rcases k with _ | _ | _ | _ | k <;> simp at h

theorem body_fillHead (h : (body log lh c)[k]? = some .fillHead) :
    k = 1 ∧ (c = .writeHead ∨ c = .eraseHead) ∧
      regBlocks ((body log lh c).take k) = [log.start] ∧
      (body log lh c)[k + 1]? = some (.bwrite 0) := by
  rcases body_eq_some h with ⟨tail, d, hc, hd, hb⟩ | ⟨tail, d, hc, hd, hb⟩ | ⟨hc, hb⟩
  · rw [hb] at h
    rcases k with _ | _ | _ | _ | _ | _ | k <;> simp at h
  · rw [hb] at h
    rcases k with _ | _ | _ | _ | _ | _ | k <;> simp at h
  · rw [hb] at h ⊢
    rcases k with _ | _ | _ | _ | k <;> simp at h
    exact ⟨rfl, hc, rfl, rfl⟩

theorem regBlocks_body (log : Area) (lh : List ℕ) (c : CommitPc) :
    regBlocks (body log lh c) = [] := by
  cases c with
  | writeLog tail => cases hb : lh[tail]? <;> simp [body, hb, regBlocks, Instr.regs]
  | install tail => cases hb : lh[tail]? <;> simp [body, hb, regBlocks, Instr.regs]
  | _ => rfl

variable {s : State P} {t : Thread} {i : Fin NBUF}

theorem Stage.blockno_of_reg (h : Stage log s t c) (hr : t.regs[r]? = some i) :
    (regBlocks ((body log s.log.lh c).take t.line))[r]? = some (s.cache.buf i).blockno := by
  rw [← h.regs, List.getElem?_map, hr]
  rfl

structure Buf.SameView (x y : Buf P) : Prop where
  dev : y.dev = x.dev
  blockno : y.blockno = x.blockno
  valid : y.valid = x.valid
  dirty : y.dirty = x.dirty
  data : y.data = x.data

theorem Buf.SameView.refl (x : Buf P) : x.SameView x := ⟨rfl, rfl, rfl, rfl, rfl⟩

theorem sameView_set {c : Cache P} {x : Buf P} (h : (c.buf i).SameView x) (j : Fin NBUF) :
    (c.buf j).SameView ((c.set i x).buf j) :=
  forall_set (Q := fun j y => (c.buf j).SameView y) h (fun _ _ => .refl _) j

theorem forall_buf {c c' : Cache P} {x : Buf P} {Q : Buf P → Buf P → Prop} (hself : c'.buf i = x)
    (hother : ∀ j, j ≠ i → c'.buf j = c.buf j) (hi : Q (c.buf i) x) (hrefl : ∀ b, Q b b)
    (j : Fin NBUF) : Q (c.buf j) (c'.buf j) := by
  by_cases hj : j = i
  · subst hj
    rwa [hself]
  · rw [hother j hj]
    exact hrefl _

theorem same_of_data {c c' : Cache P} {data : Block}
    (hself : c'.buf i = { c.buf i with data := data })
    (hother : ∀ j, j ≠ i → c'.buf j = c.buf j) (j : Fin NBUF) :
    (c'.buf j).dev = (c.buf j).dev ∧ (c'.buf j).blockno = (c.buf j).blockno ∧
      (c'.buf j).valid = (c.buf j).valid ∧ (c'.buf j).dirty = (c.buf j).dirty :=
  forall_buf (Q := fun x y => y.dev = x.dev ∧ y.blockno = x.blockno ∧ y.valid = x.valid ∧
    y.dirty = x.dirty) hself hother ⟨rfl, rfl, rfl, rfl⟩ (fun _ => ⟨rfl, rfl, rfl, rfl⟩) j

structure SameLog (s s' : State P) : Prop where
  lh : s'.log.lh = s.log.lh
  installed : s'.installed = s.installed
  stored : s'.stored = s.stored
  disk : s'.cache.disk = s.cache.disk

variable {s' : State P}

theorem SameLog.copied (h : SameLog s s') {n : ℕ} (hc : Copied log s n) : Copied log s' n := by
  intro j b hj hb
  rw [h.disk, h.stored]
  rw [h.lh] at hb
  exact hc j b hj hb

variable {t' : Thread}

theorem AtPoint.frame (h : AtPoint log s t c) (hs : SameLog s s')
    (hregs : t'.regs = t.regs) (hline : t'.line = t.line)
    (hbuf : ∀ i ∈ t.regs, (s.cache.buf i).SameView (s'.cache.buf i)) : AtPoint log s' t' c := by
  cases c with
  | writeLog tail =>
    obtain ⟨hi, hc, hdata⟩ := h
    refine ⟨hs.installed.trans hi, ?_, ?_⟩
    · rw [hline]
      exact hs.copied hc
    intro hl i b hi hb
    rw [hregs] at hi
    rw [hs.lh] at hb
    rw [(hbuf i (List.mem_of_getElem? hi)).data, hs.stored]
    exact hdata (hline ▸ hl) i b hi hb
  | writeHead =>
    refine ⟨hs.installed.trans h.1, ?_⟩
    rw [hs.lh]
    exact hs.copied h.2
  | install tail =>
    refine ⟨?_, ?_⟩
    · rw [hline]
      exact hs.installed.trans h.1
    · rw [hs.lh]
      exact hs.copied h.2
  | clear =>
    change s'.log.lh.length ≤ s'.installed
    rw [hs.lh, hs.installed]
    exact h
  | _ => exact hs.installed.trans h

theorem Stage.frame (h : Stage log s t c) (hs : SameLog s s') (hregs : t'.regs = t.regs)
    (hline : t'.line = t.line) (hbuf : ∀ i ∈ t.regs, (s.cache.buf i).SameView (s'.cache.buf i))
    (hfits : t'.io = t.io ∨ s.log.lh.length < LOGSIZE) : Stage log s' t' c where
  line := by
    rw [hline, hs.lh]
    exact h.line
  regs := by
    rw [hregs, hline, hs.lh, ← h.regs]
    exact List.map_congr_left fun i hi => (hbuf i hi).blockno
  valid := by
    rw [hregs]
    intro i hi
    rw [(hbuf i hi).valid]
    exact h.valid i hi
  fits := by
    rw [hs.lh, hline]
    rcases hfits with hio | hlt
    · rw [hio]
      exact h.fits
    · exact .inr hlt
  point := h.point.frame hs hregs hline hbuf

theorem AtPoint.advance (h : AtPoint log s t c) (hs : SameLog s s')
    (h4 : ∀ tail, c = .writeLog tail ∨ c = .install tail → (4 ≤ t'.line ↔ 4 ≤ t.line))
    (h3 : t'.line ≠ 3 ∨ ∀ tail, c ≠ .writeLog tail) : AtPoint log s' t' c := by
  cases c with
  | writeLog tail =>
    refine ⟨hs.installed.trans h.1, ?_, fun hl => ?_⟩
    · simp only [h4 tail (.inl rfl)]
      exact hs.copied h.2.1
    · rcases h3 with h3 | h3
      · exact absurd hl h3
      · exact absurd rfl (h3 tail)
  | install tail =>
    refine ⟨?_, ?_⟩
    · simp only [h4 tail (.inr rfl)]
      exact hs.installed.trans h.1
    · rw [hs.lh]
      exact hs.copied h.2
  | writeHead =>
    refine ⟨hs.installed.trans h.1, ?_⟩
    rw [hs.lh]
    exact hs.copied h.2
  | clear =>
    change s'.log.lh.length ≤ s'.installed
    rw [hs.lh, hs.installed]
    exact h
  | _ => exact hs.installed.trans h

theorem Stage.advance (h : Stage log s t c)
    (hins : (body log s.log.lh c)[t.line]? = some x) (hline : t'.line = t.line + 1)
    (hlh : s'.log.lh = s.log.lh)
    (hregs : t'.regs.map (fun i => (s'.cache.buf i).blockno) = x.regs (t.regs.map fun i =>
      (s.cache.buf i).blockno))
    (hvalid : ∀ i ∈ t'.regs, (s'.cache.buf i).valid = true) (hfits : t.line ≠ 0 ∨ t.io ≠ .ready)
    (hpoint : AtPoint log s' t' c) : Stage log s' t' c where
  line := by
    rw [hline, hlh]
    exact (List.getElem?_eq_some_iff.1 hins).1
  regs := by
    rw [hregs, hline, hlh, h.regs, regBlocks_take_succ hins]
  valid := hvalid
  fits := by
    rw [hlh]
    rcases h.fits with ⟨-, hl, hio⟩ | hlt
    · exact absurd hl (hfits.resolve_right fun hne => hne hio)
    · exact .inr hlt
  point := hpoint

theorem Asks.frame {lh' : List ℕ} {pc : Log.Pc} {b : ℕ} (h : Asks log lh pc t b)
    (hlh : ∀ c, pc = .committing c → lh' = lh) (hline : t'.line = t.line) :
    Asks log lh' pc t' b := by
  cases h with
  | user hc hb => exact .user hc hb
  | commit c hc hins =>
    rw [← hline, ← hlh c hc] at hins
    exact .commit c hc hins

theorem Local.frame {pc pc' : Log.Pc} (h : Local log s pc t)
    (hpc : pc' = pc ∨ pc = .sleeping ∧ pc' = .begin)
    (hbuf : ∀ i ∈ t.locks, (s.cache.buf i).SameView (s'.cache.buf i))
    (hs : ∀ c, pc = .committing c → SameLog s s') : Local log s' pc' t := by
  have hheld : ∀ i ∈ t.held, (s.cache.buf i).SameView (s'.cache.buf i) :=
    fun i hi => hbuf i (mem_locks_of_held hi)
  have hcom : ∀ c, pc' = .committing c → pc = .committing c := by
    intro c hc
    rcases hpc with rfl | ⟨-, rfl⟩
    · exact hc
    · cases hc
  have hcom' : (∀ c, pc' ≠ .committing c) → ∀ c, pc ≠ .committing c := by
    intro hno c hc
    rcases hpc with rfl | ⟨rfl, -⟩
    · exact hno c hc
    · cases hc
  constructor
  · intro i hi
    rw [(hheld i hi).blockno, (hheld i hi).valid]
    exact h.held i hi
  · intro i hi
    obtain ⟨hmem, hop⟩ := h.unlogged i hi
    refine ⟨hmem, ?_⟩
    rcases hpc with rfl | ⟨rfl, -⟩
    · exact hop
    · exact absurd rfl hop
  · intro b i ha
    have hask := (h.asking b i ha).frame (fun c hc => (hs c hc).lh) (rfl : t.line = t.line)
    rcases hpc with rfl | ⟨rfl, rfl⟩
    · exact hask
    · cases hask with
      | user _ hb => exact .user (by simp) hb
      | commit c hc _ => cases hc
  · intro i hio
    obtain ⟨hmem, e, w, ht⟩ := h.logging i hio
    refine ⟨hmem, e, w, ?_⟩
    rw [(hheld i hmem).blockno]
    rcases hpc with rfl | ⟨rfl, -⟩
    · exact ht
    · cases ht
  · exact fun hno => h.idle (hcom' hno)
  · intro c hc
    exact (h.stage c (hcom c hc)).frame (hs c (hcom c hc)) rfl rfl
      (fun i hi => hbuf i (mem_locks_of_regs hi)) (.inl rfl)

def Settled (s s' : State P) (i : Fin NBUF) : Prop :=
  (s.cache.buf i).SameView (s'.cache.buf i) ∨
    ((s'.cache.buf i).valid = false ∧ (s'.cache.buf i).dirty = false) ∧
      (s.cache.buf i).dirty = false ∧ ∀ q, i ∉ (s.thr q).unlogged

theorem Shared.frame (h : Shared log s) (hs : SameLog s s') (hview : ∀ i, Settled s s' i)
    (hcalm : s'.log.committing = false → s.installed = 0)
    (hun : ∀ q, (s'.thr q).unlogged = (s.thr q).unlogged)
    (hw : ∀ q i, Writing log s q i → Writing log s' q i) : Shared log s' where
  homes := by
    rw [hs.lh]
    exact h.homes
  content := by
    intro i hdev hv hh
    rcases hview i with hi | ⟨⟨hnv, -⟩, -⟩
    · rw [hi.blockno] at hh ⊢
      rw [hi.data, hs.stored]
      exact h.content i (hi.dev ▸ hdev) (hi.valid ▸ hv) hh
    · rw [hnv] at hv
      cases hv
  pinned := by
    intro b hb
    rw [State.pinned, hs.lh, hs.installed] at hb
    obtain ⟨i, hc, hd⟩ := h.pinned b hb
    rcases hview i with hi | ⟨-, hnd, -⟩
    · exact ⟨i, ⟨hi.dev.trans hc.1, hi.blockno.trans hc.2⟩, hi.dirty.trans hd⟩
    · rw [hnd] at hd
      cases hd
  dirty := by
    intro i hd
    rcases hview i with hi | ⟨⟨-, hnd⟩, -⟩
    · rw [hi.dev, hi.valid, hi.blockno, State.pinned, hs.lh, hs.installed]
      exact h.dirty i (hi.dirty ▸ hd)
    · rw [hnd] at hd
      cases hd
  calm := fun hc => hs.installed.trans (hcalm hc)
  fresh := by
    intro b hb
    rw [hs.disk, hs.stored]
    refine (h.fresh b hb).imp_right ?_
    rintro ⟨i, hc, hv, hd⟩
    rcases hview i with hi | ⟨-, hnd, hnu⟩
    · refine ⟨i, ⟨hi.dev.trans hc.1, hi.blockno.trans hc.2⟩, hi.valid.trans hv, ?_⟩
      exact hd.imp (fun hd => hi.dirty.trans hd) fun ⟨q, hq⟩ => ⟨q, hun q ▸ hq⟩
    · rcases hd with hd | ⟨q, hq⟩
      · rw [hnd] at hd
        cases hd
      · exact absurd hq (hnu q)
  copies := by
    intro i hdev hv hh
    rcases hview i with hi | ⟨⟨hnv, -⟩, -⟩
    · rw [hi.blockno] at hh ⊢
      rw [hi.data, hs.disk]
      exact (h.copies i (hi.dev ▸ hdev) (hi.valid ▸ hv) hh).imp_right fun ⟨q, hq⟩ => ⟨q, hw q i hq⟩
    · rw [hnv] at hv
      cases hv

theorem Shared.length_pinned_lt (h : Shared log s) (hn : s.log.lh.Nodup)
    (hi : (s.cache.buf i).dirty = false) : s.pinned.length < NBUF := by
  have hnodup : s.pinned.Nodup := hn.sublist (List.drop_sublist _ _)
  have hsub : s.pinned.toFinset ⊆ (Finset.univ.erase i).image fun j => (s.cache.buf j).blockno := by
    intro b hb
    obtain ⟨j, hc, hd⟩ := h.pinned b (List.mem_toFinset.1 hb)
    refine Finset.mem_image.2 ⟨j, Finset.mem_erase.2 ⟨?_, Finset.mem_univ j⟩, hc.2⟩
    rintro rfl
    rw [hi] at hd
    cases hd
  have hcard := (Finset.card_le_card hsub).trans Finset.card_image_le
  rw [List.toFinset_card_of_nodup hnodup, Finset.card_erase_of_mem (Finset.mem_univ i),
    Finset.card_univ, Fintype.card_fin] at hcard
  have hpos : 0 < NBUF := by decide
  omega

variable [DecidableEq P] {log : Area} {s s' : State P} {p : P} {i : Fin NBUF} {t : Thread}

theorem Writing.of_ne {q : P} (h : Writing log s q i) (hq : q ≠ p) (hthr : s'.thr = s.thr)
    (hpc : s'.log.pc q = s.log.pc q) (hlh : s'.log.lh = s.log.lh) :
    Writing log (s'.setThr p t) q i := by
  obtain ⟨c, r, hc, hins, hr⟩ := h
  refine ⟨c, r, hpc.trans hc, ?_, ?_⟩
  · rw [setThr_of_ne _ _ hq, hthr]
    change (body log s'.log.lh c)[_]? = _
    rw [hlh]
    exact hins
  · rw [setThr_of_ne _ _ hq, hthr]
    exact hr

theorem Writing.of_setThr {q : P} (h : Writing log s q i) (hthr : s'.thr = s.thr)
    (hpc : s'.log.pc = s.log.pc) (hlh : s'.log.lh = s.log.lh) (hregs : t.regs = (s.thr p).regs)
    (hline : t.line = (s.thr p).line) : Writing log (s'.setThr p t) q i := by
  by_cases hq : q = p
  · subst hq
    obtain ⟨c, r, hc, hins, hr⟩ := h
    refine ⟨c, r, (congrFun hpc q).trans hc, ?_, ?_⟩
    · rw [setThr_self, hline]
      change (body log s'.log.lh c)[_]? = _
      rw [hlh]
      exact hins
    · rw [setThr_self, hregs]
      exact hr
  · exact h.of_ne hq hthr (congrFun hpc q) hlh

variable [Fintype P]

theorem Inv.of_setThr (h : Inv log s) (hthr : s'.thr = s.thr) (hlog : Log.Inv s'.log)
    (hown : Owned (s'.setThr p t)) (hsh : Shared log (s'.setThr p t))
    (hp : Local log s' (s'.log.pc p) t)
    (hpc : ∀ q, q ≠ p → s'.log.pc q = s.log.pc q ∨ s.log.pc q = .sleeping ∧ s'.log.pc q = .begin)
    (hview : ∀ q i, q ≠ p → i ∈ (s.thr q).locks → (s.cache.buf i).SameView (s'.cache.buf i))
    (hsame : ∀ q c, q ≠ p → s.log.pc q = .committing c → SameLog s s') :
    Inv log (s'.setThr p t) where
  group := hlog
  owned := hown
  shared := hsh
  locals := by
    intro q
    by_cases hq : q = p
    · subst hq
      rw [setThr_self]
      exact hp.frame (.inl rfl) (fun i _ => .refl _) fun _ _ => ⟨rfl, rfl, rfl, rfl⟩
    · rw [setThr_of_ne _ _ hq, hthr]
      exact (h.locals q).frame (hpc q hq) (fun i hi => hview q i hq hi) fun c hc =>
        have hs := hsame q c hq hc
        ⟨hs.lh, hs.installed, hs.stored, hs.disk⟩

end Xv6.Bio
