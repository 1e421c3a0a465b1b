import Xv6.Log.Group

namespace Xv6.Log

open Lib

def Pc.reserved (k : ℕ) : Pc → ℤ
  | .inOp _ w => k - w.length
  | .tested _ w _ => k - w.length
  | _ => 0

def Pc.Within (k : ℕ) : Pc → Prop
  | .inOp _ w => w.length ≤ k
  | .tested _ w b => w.length ≤ k ∧ (b ∈ w ∨ w.length < k)
  | _ => True

theorem Pc.Within.reserved_nonneg {k : ℕ} {c : Pc} (h : c.Within k) : 0 ≤ c.reserved k := by
  cases c with
  | inOp e w => simpa [Pc.reserved, Pc.Within] using h
  | tested e w b => simpa [Pc.reserved] using h.1
  | _ => rfl

theorem Pc.reserved_le (k : ℕ) (c : Pc) : c.reserved k ≤ k * c.ops := by
  cases c <;> simp [Pc.reserved, Pc.ops]

def fitsOp (k : ℕ) : Act → Pc → Bool
  | .logWrite b, .inOp _ w => decide (b ∈ w) || decide (w.length < k)
  | _, _ => true

def fitsGroup (n : ℕ) (calls : List ℕ) : Act → Pc → Bool
  | .run, .tested _ _ b => decide (b ∈ calls) || decide (calls.toFinset.card < n)
  | _, _ => true

section
variable {P : Type}

def WithinOp (k : ℕ) (s : State P) (l : P × Act) : Prop := fitsOp k l.2 (s.pc l.1) = true

def CalledWithin (n : ℕ) (s : State P) (l : P × Act) : Prop :=
  ∀ b, l.2 = .logWrite b → s.calls.toFinset.card < n

def AppendsWithin (n : ℕ) (s : State P) (l : P × Act) : Prop :=
  fitsGroup n s.calls l.2 (s.pc l.1) = true

instance (k : ℕ) (s : State P) (l : P × Act) : Decidable (WithinOp k s l) :=
  inferInstanceAs (Decidable (_ = true))

instance (n : ℕ) (s : State P) (l : P × Act) : Decidable (AppendsWithin n s l) :=
  inferInstanceAs (Decidable (_ = true))

def Pc.isTested : Pc → Bool
  | .tested _ _ _ => true
  | _ => false

def Act.isLogWrite : Act → Bool
  | .logWrite _ => true
  | _ => false

def TestsAlone (s : State P) (l : P × Act) : Prop :=
  l.2.isLogWrite = true → ∀ q, (s.pc q).isTested = false

instance [Fintype P] (s : State P) (l : P × Act) : Decidable (TestsAlone s l) :=
  inferInstanceAs (Decidable (_ → _))

def logTarget (start : ℕ) (s : State P) (p : P) : Option ℕ :=
  match s.pc p with
  | .committing (.writeLog tail) => if tail < s.lh.length then some (start + tail + 1) else none
  | _ => none

def InArea (start size : ℕ) (s : State P) : Prop :=
  s.lh.length ≤ size - 1 ∧ ∀ p b, logTarget start s p = some b → b < start + size

theorem logTarget_lt {start size : ℕ} {s : State P} (h : s.lh.length ≤ size - 1) {p : P} {b : ℕ}
    (hb : logTarget start s p = some b) : b < start + size := by
  unfold logTarget at hb
  split at hb
  · split at hb
    · cases hb
      omega
    · cases hb
  · cases hb

theorem inArea_of_length {start size : ℕ} {s : State P} (h : s.lh.length ≤ size - 1) :
    InArea start size s :=
  ⟨h, fun _ _ hb => logTarget_lt h hb⟩

end

structure Reserved {P : Type} [Fintype P] (k : ℕ) (c : ℤ) (s : State P) : Prop where
  within : ∀ p, (s.pc p).Within k
  room : s.lh.length + ∑ p, (s.pc p).reserved k ≤ c

section
variable {P : Type} [Fintype P] {s : State P}

theorem Inv.reserved_le (h : Inv s) (k : ℕ) : ∑ p, (s.pc p).reserved k ≤ k * s.outstanding := by
  rw [← h.opCount, Finset.mul_sum]
  exact Finset.sum_le_sum fun q _ => (s.pc q).reserved_le k

theorem Inv.distinct (h : Inv s) : s.calls.toFinset.card = s.lh.length := by
  rw [← List.toFinset_card_of_nodup h.nodup]
  congr 1
  ext b
  simp [h.logged]

end

section
variable {P : Type} [DecidableEq P] [Fintype P] {s s' : State P} {p : P} {k : ℕ} {c : ℤ}

theorem Reserved.of_goto (h : Reserved k c s) {pc' : Pc}
    (hpc : ∀ q, (s'.pc q).Within k ∧ (s'.pc q).reserved k = (s.pc q).reserved k) (hw : pc'.Within k)
    (hroom : s'.lh.length + pc'.reserved k ≤ s.lh.length + (s.pc p).reserved k) :
    Reserved k c (s'.goto p pc') where
  within := forall_goto (Q := fun _ pc => pc.Within k) hw fun q _ => (hpc q).1
  room := by
    have hsum := sum_update s'.pc (Pc.reserved k) p pc'
    rw [(hpc p).2, Finset.sum_congr rfl fun q _ => (hpc q).2] at hsum
    have hold := h.room
    change (s'.lh.length : ℤ) + ∑ q, Pc.reserved k (Function.update s'.pc p pc' q) ≤ c
    omega

theorem Reserved.append (hr : Reserved k c s) (hi : Inv s) {e : ℕ} {w : List ℕ} {b : ℕ}
    (hp : s.pc p = .tested e w b) : Reserved k c (logAppend s p e w b) := by
  have hw := hr.within p
  have hloc := hi.locals p
  rw [hp] at hw hloc
  refine hr.of_goto (fun q => ⟨hr.within q, rfl⟩) ?_ ?_
  · by_cases hb : b ∈ w
    · simpa [Pc.Within, absorb_of_mem hb] using hw.1
    · simpa [Pc.Within, absorb_of_notMem hb, Nat.succ_le_iff] using hw.2.resolve_left hb
  by_cases hb : b ∈ w
  · simp [hp, Pc.reserved, absorb_of_mem hb, absorb_of_mem (hloc.2 hb)]
  by_cases hlh : b ∈ s.lh
  · simp [hp, Pc.reserved, absorb_of_notMem hb, absorb_of_mem hlh]
    omega
  · simp [hp, Pc.reserved, absorb_of_notMem hb, absorb_of_notMem hlh]
    omega

theorem Reserved.enter (hr : Reserved k c s) (hi : Inv s) (hp : s.pc p = .begin)
    (hadm : s.lh.length + k * s.outstanding + k ≤ c) :
    Reserved k c ({ s with outstanding := s.outstanding + 1 }.goto p
      (.inOp s.commits.length [])) where
  within := forall_goto (Q := fun _ pc => pc.Within k) (Nat.zero_le k) fun q _ => hr.within q
  room := by
    have hsum := sum_update s.pc (Pc.reserved k) p (.inOp s.commits.length [])
    have hle := hi.reserved_le k
    rw [hp] at hsum
    change (s.lh.length : ℤ) + ∑ q, Pc.reserved k (Function.update s.pc p _ q) ≤ c
    rw [hsum]
    change (s.lh.length : ℤ) + (∑ q, (s.pc q).reserved k - 0 + (k - (0 : ℕ))) ≤ c
    omega

variable {size : ℕ} {t : State P} {a : Act}

theorem Reserved.move (hr : Reserved k c s) (hi : Inv s)
    (hadm : ¬s.MustWait → s.lh.length + k * s.outstanding + k ≤ c) (hk : WithinOp k s (p, a))
    (hm : Move size s p a t) : Reserved k c t := by
  have hsame : ∀ q, (s.pc q).Within k ∧ (s.pc q).reserved k = (s.pc q).reserved k :=
    fun q => ⟨hr.within q, rfl⟩
  have hwake : ∀ s' : State P, s'.pc = s.pc → ∀ q, (s'.wakeup.pc q).Within k ∧
      (s'.wakeup.pc q).reserved k = (s.pc q).reserved k := by
    intro s' hpc q
    rw [wakeup_map (Pc.Within k) rfl, wakeup_map (Pc.reserved k) rfl, hpc]
    exact hsame q
  have hwp := hr.within p
  have hnn := hwp.reserved_nonneg
  cases hm with
  | call hp => exact hr.of_goto hsame trivial (by simp [hp, Pc.reserved])
  | wake hp => exact hr.of_goto hsame trivial (by simp [hp, Pc.reserved])
  | sleep hp hw => exact hr.of_goto hsame trivial (by simp [hp, Pc.reserved])
  | enter hp hw => exact hr.enter hi hp (hadm hw)
  | tooBig e w b hp hn => exact ⟨hr.within, hr.room⟩
  | outside e w b hp hn ho => exact ⟨hr.within, hr.room⟩
  | test e w b hp hn ho =>
    rw [hp] at hwp
    refine hr.of_goto hsame ⟨hwp, ?_⟩ (by simp [hp, Pc.reserved])
    simpa [WithinOp, fitsOp, hp] using hk
  | append e w b hp => exact hr.append hi hp
  | endPanic e w hp hcm => exact ⟨hr.within, hr.room⟩
  | endLast e w hp hnc hout => exact hr.of_goto hsame trivial (by simpa [Pc.reserved] using hnn)
  | endMore e w hp hnc hout =>
    exact hr.of_goto (hwake _ rfl) trivial (by simpa [State.wakeup, Pc.reserved] using hnn)
  | commit c c' hp hn => exact hr.of_goto hsame trivial (by simp [hp, Pc.reserved])
  | clear hp => exact hr.of_goto hsame trivial (by simp [hp, Pc.reserved])
  | finish hp =>
    exact hr.of_goto (hwake _ rfl) trivial (by simpa [State.wakeup, Pc.reserved] using hnn)

variable {tr : List (P × Act)}

theorem length_lh_le (hc : 0 ≤ c)
    (hadm : ∀ s : State P, Inv s → ¬s.MustWait → s.lh.length + k * s.outstanding + k ≤ c)
    (hr : exec (step size) (init P) tr = some s)
    (hk : EveryStep (step size) (init P) (WithinOp k) tr) : s.lh.length ≤ c := by
  have hinit : Reserved k c (init P) :=
    ⟨fun p => trivial, by simpa [init, Pc.reserved] using hc⟩
  obtain ⟨-, hres⟩ := exec_guarded (fun s => Inv s ∧ Reserved k c s) ⟨inv_init P, hinit⟩
    (fun t l u ht hG hl => ⟨inv_step ht.1 hl, ht.2.move ht.1 (hadm t ht.1) hG (step_move hl).2⟩)
    hr hk
  have hsum : 0 ≤ ∑ p, (s.pc p).reserved k :=
    Finset.sum_nonneg fun p _ => (hres.within p).reserved_nonneg
  have hroom := hres.room
  omega

theorem length_lh_le_LOGSIZE (hr : exec (step size) (init P) tr = some s)
    (hk : EveryStep (step size) (init P) (WithinOp MAXOPBLOCKS) tr) : s.lh.length ≤ LOGSIZE := by
  have hle := length_lh_le (k := MAXOPBLOCKS) (c := LOGSIZE) (by decide) ?_ hr hk
  · exact_mod_cast hle
  · intro s _ hw
    simp only [State.MustWait, not_or, LOGSIZE, MAXOPBLOCKS] at hw ⊢
    omega

theorem length_lh_lt_of_small (hr : exec (step size) (init P) tr = some s)
    (hk : EveryStep (step size) (init P) (WithinOp (MAXOPBLOCKS - 1)) tr) :
    s.lh.length < LOGSIZE - 1 := by
  have hle := length_lh_le (k := MAXOPBLOCKS - 1) (c := (28 : ℕ)) (by decide) ?_ hr hk
  · simp only [LOGSIZE, MAXOPBLOCKS] at hle ⊢
    omega
  intro s hi hw
  have hnn := hi.outstanding_nonneg
  have hdrained := hi.drained
  simp only [State.MustWait, not_or, LOGSIZE, MAXOPBLOCKS] at hw ⊢
  have hw1 := hw.1
  rw [Bool.not_eq_true] at hw1
  by_cases h0 : s.outstanding = 0
  · simp [hdrained h0 hw1, h0]
  · omega

theorem Inv.tooBig_iff (h : Inv s) (hn : s.panicked = none) (hm : Move LOGSIZE s p a t) :
    t.panicked ≠ some .tooBig ↔ CalledWithin (LOGSIZE - 1) s (p, a) := by
  have hsame : ∀ {s' : State P}, s'.panicked = s.panicked → s'.panicked ≠ some .tooBig := by
    intro s' hs'
    rw [hs', hn]
    simp
  unfold CalledWithin
  rw [h.distinct]
  cases hm with
  | tooBig e w b hp hfull =>
    refine iff_of_false (fun ht => ht rfl) fun hroom => ?_
    have := hroom b rfl
    omega
  | outside e w b hp hfull ho => exact iff_of_true (by simp [State.panic]) fun _ _ => by omega
  | test e w b hp hfull ho => exact iff_of_true (hsame rfl) fun _ _ => by omega
  | endPanic e w hp hc =>
    exact iff_of_true (by simp [State.panic]) fun b hb => by cases hb
  | _ => exact iff_of_true (hsame rfl) fun b hb => by cases hb

theorem Inv.length_le_iff {n : ℕ} (h : Inv s) (hle : s.lh.length ≤ n) (hm : Move size s p a t) :
    t.lh.length ≤ n ↔ AppendsWithin n s (p, a) := by
  have hsame : ∀ {s' : State P}, s'.lh = s.lh → s'.lh.length ≤ n := by
    intro s' hs'
    rwa [hs']
  cases hm with
  | append e w b hp =>
    simp only [AppendsWithin, fitsGroup, hp, h.logged, h.distinct, Bool.or_eq_true,
      decide_eq_true_eq]
    change (absorb s.lh b).length ≤ n ↔ _
    by_cases hb : b ∈ s.lh
    · simpa [absorb_of_mem hb, hb] using hle
    · rw [absorb_of_notMem hb, List.length_append, List.length_singleton, or_iff_right hb]
      exact Nat.succ_le_iff
  | clear hp => exact iff_of_true (Nat.zero_le n) (by simp [AppendsWithin, fitsGroup, hp])
  | _ => exact iff_of_true (hsame rfl) (by simp_all [AppendsWithin, fitsGroup])

end

structure Lone {P : Type} (n : ℕ) (s : State P) : Prop where
  one : ∀ q r, (s.pc q).isTested = true → (s.pc r).isTested = true → q = r
  room : ∀ q, (s.pc q).isTested = true → s.lh.length < n
  bound : s.lh.length ≤ n

section
variable {P : Type} {s t : State P} {n : ℕ}

theorem lone_init (P : Type) (n : ℕ) : Lone n (init P) where
  one _ _ hq := Bool.noConfusion hq
  room _ hq := Bool.noConfusion hq
  bound := Nat.zero_le n

theorem Lone.of_tested (h : Lone n s) (hlh : t.lh.length ≤ s.lh.length)
    (hpc : ∀ q, (t.pc q).isTested = true → (s.pc q).isTested = true) : Lone n t where
  one q r hq hr := h.one q r (hpc q hq) (hpc r hr)
  room q hq := hlh.trans_lt (h.room q (hpc q hq))
  bound := hlh.trans h.bound

variable [DecidableEq P] {p : P} {a : Act}

theorem isTested_goto {c : Pc} (hc : c.isTested = false)
    (hpc : ∀ q, (t.pc q).isTested = (s.pc q).isTested) (q : P)
    (hq : ((t.goto p c).pc q).isTested = true) : (s.pc q).isTested = true := by
  by_cases hqp : q = p
  · subst hqp
    rw [goto_pc_self, hc] at hq
    cases hq
  · rwa [goto_pc_of_ne _ _ hqp, hpc] at hq

theorem Lone.test (h : Lone n s) (ha : ∀ q, (s.pc q).isTested = false) (e : ℕ) (w : List ℕ)
    (b : ℕ) (hroom : s.lh.length < n) : Lone n (s.goto p (.tested e w b)) := by
  have honly : ∀ q, ((s.goto p (.tested e w b)).pc q).isTested = true → q = p := by
    intro q hq
    by_contra hne
    rw [goto_pc_of_ne _ _ hne, ha q] at hq
    cases hq
  exact ⟨fun q r hq hr => (honly q hq).trans (honly r hr).symm, fun q _ => hroom, h.bound⟩

theorem Lone.append (h : Lone n s) {e : ℕ} {w : List ℕ} {b : ℕ} (hp : s.pc p = .tested e w b) :
    Lone n (logAppend s p e w b) := by
  have hpt : (s.pc p).isTested = true := by
    rw [hp]
    rfl
  have hnone : ∀ q, ((logAppend s p e w b).pc q).isTested ≠ true := by
    intro q hq
    have hqs := isTested_goto (s := s) rfl (fun _ => rfl) q hq
    obtain rfl := h.one q p hqs hpt
    rw [logAppend, goto_pc_self] at hq
    cases hq
  refine ⟨fun q r hq => absurd hq (hnone q), fun q hq => absurd hq (hnone q), ?_⟩
  exact (length_absorb_le s.lh b).trans (h.room p hpt)

theorem Lone.move {size : ℕ} (h : Lone (size - 1) s) (ha : TestsAlone s (p, a))
    (hm : Move size s p a t) : Lone (size - 1) t := by
  have hwake : ∀ s' : State P, s'.pc = s.pc → ∀ q,
      (s'.wakeup.pc q).isTested = (s.pc q).isTested := by
    intro s' hpc q
    rw [wakeup_map Pc.isTested rfl, hpc]
  cases hm with
  | tooBig e w b hp hn => exact h.of_tested le_rfl fun q hq => hq
  | outside e w b hp hn ho => exact h.of_tested le_rfl fun q hq => hq
  | endPanic e w hp hcm => exact h.of_tested le_rfl fun q hq => hq
  | test e w b hp hn ho => exact h.test (ha rfl) e w b (by omega)
  | append e w b hp => exact h.append hp
  | endMore e w hp hnc hout => exact h.of_tested le_rfl (isTested_goto rfl (hwake _ rfl))
  | finish hp => exact h.of_tested le_rfl (isTested_goto rfl (hwake _ rfl))
  | clear hp => exact h.of_tested (Nat.zero_le _) (isTested_goto rfl fun _ => rfl)
  | _ => exact h.of_tested le_rfl (isTested_goto rfl fun _ => rfl)

end

variable {P : Type} [DecidableEq P] [Fintype P] {s : State P} {tr : List (P × Act)}

theorem tooBig_unreached_iff (hr : exec (step LOGSIZE) (init P) tr = some s) :
    (EveryState (step LOGSIZE) (init P) (fun t => t.panicked ≠ some .tooBig) tr ↔
      EveryStep (step LOGSIZE) (init P) (CalledWithin (LOGSIZE - 1)) tr) ∧
    (EveryStep (step LOGSIZE) (init P) (WithinOp (MAXOPBLOCKS - 1)) tr →
      EveryStep (step LOGSIZE) (init P) (CalledWithin (LOGSIZE - 1)) tr) := by
  constructor
  · refine everyState_iff_everyStep (by simp [init]) ?_ hr
    intro tr t l u ht _ hl
    obtain ⟨hn, hm⟩ := step_move hl
    exact (inv_exec (inv_init P) ht).tooBig_iff hn hm
  · intro hk tr' l t hpre ht b _
    rw [(inv_exec (inv_init P) ht).distinct]
    exact length_lh_lt_of_small ht (hk.of_prefix ((List.prefix_append _ _).trans hpre))

theorem tooBig_unreached_commitRace :
    EveryState (step LOGSIZE) (init (Fin 2)) (fun t => t.panicked ≠ some .tooBig) commitRace := by
  obtain ⟨s, hs, -⟩ := exec_exists (restrict (WithinOp (MAXOPBLOCKS - 1)) (step LOGSIZE))
    (init (Fin 2)) commitRace (fun _ => True) (by decide)
  obtain ⟨hrun, hsmall⟩ := exec_restrict hs
  have hiff := tooBig_unreached_iff hrun
  exact hiff.1.2 (hiff.2 hsmall)

def threeBegins : List (Fin 3 × Act) :=
  [(0, .beginOp), (0, .run), (1, .beginOp), (1, .run), (2, .beginOp), (2, .run)]

def logBlocks (p : Fin 3) (b n : ℕ) : List (Fin 3 × Act) :=
  (List.range n).flatMap fun i => [(p, .logWrite (b + i)), (p, .run)]

def thirtyBlocks : List (Fin 3 × Act) :=
  threeBegins ++ logBlocks 0 100 10 ++ logBlocks 1 110 10 ++ logBlocks 2 120 9 ++
    [(2, .logWrite 129)]

theorem tooBig_thirtyBlocks :
    ∃ s, (exec (step LOGSIZE) (init (Fin 3)) thirtyBlocks = some s ∧
        EveryStep (step LOGSIZE) (init (Fin 3)) (WithinOp MAXOPBLOCKS) thirtyBlocks) ∧
      s.panicked = some .tooBig := by
  obtain ⟨s, hs, hend⟩ := exec_exists (restrict (WithinOp MAXOPBLOCKS) (step LOGSIZE))
    (init (Fin 3)) thirtyBlocks (fun s => s.panicked = some .tooBig) (by decide +kernel)
  exact ⟨s, exec_restrict hs, hend⟩

theorem log_within_area_iff (start : ℕ) (hr : exec (step LOGSIZE) (init P) tr = some s)
    (hk : EveryStep (step LOGSIZE) (init P) (WithinOp MAXOPBLOCKS) tr) :
    s.lh.length ≤ LOGSIZE ∧
    (EveryStep (step LOGSIZE) (init P) (WithinOp (MAXOPBLOCKS - 1)) tr →
      EveryState (step LOGSIZE) (init P) (InArea start LOGSIZE) tr) ∧
    (EveryStep (step LOGSIZE) (init P) TestsAlone tr →
      EveryState (step LOGSIZE) (init P) (InArea start LOGSIZE) tr) ∧
    (EveryState (step LOGSIZE) (init P) (InArea start LOGSIZE) tr ↔
      EveryStep (step LOGSIZE) (init P) (AppendsWithin (LOGSIZE - 1)) tr) := by
  refine ⟨length_lh_le_LOGSIZE hr hk, ?_, ?_, everyState_iff_everyStep ?_ ?_ hr⟩
  · intro hsmall tr' t hpre ht
    exact inArea_of_length (length_lh_lt_of_small ht (hsmall.of_prefix hpre)).le
  · intro hlone tr' t hpre ht
    have h := exec_guarded (Lone (LOGSIZE - 1)) (lone_init P _)
      (fun u l v hu hG hl => hu.move hG (step_move hl).2) ht (hlone.of_prefix hpre)
    exact inArea_of_length h.bound
  · exact inArea_of_length (Nat.zero_le _)
  · intro tr t l u ht hQ hl
    rw [← (inv_exec (inv_init P) ht).length_le_iff hQ.1 (step_move hl).2]
    exact ⟨fun hu => hu.1, inArea_of_length⟩

def fullArea : List (Fin 3 × Act) :=
  threeBegins ++ logBlocks 0 100 10 ++ logBlocks 1 110 10 ++ logBlocks 2 120 9

theorem log_within_area_fullArea :
    ∃ s, exec (step LOGSIZE) (init (Fin 3)) fullArea = some s ∧ s.lh.length = LOGSIZE - 1 ∧
      EveryState (step LOGSIZE) (init (Fin 3)) (InArea 2 LOGSIZE) fullArea := by
  obtain ⟨s, hs, hfull⟩ := exec_exists (restrict (WithinOp MAXOPBLOCKS) (step LOGSIZE))
    (init (Fin 3)) fullArea (fun s => s.lh.length = LOGSIZE - 1) (by decide +kernel)
  obtain ⟨t, ht, -⟩ := exec_exists (restrict TestsAlone (step LOGSIZE))
    (init (Fin 3)) fullArea (fun _ => True) (by decide +kernel)
  obtain ⟨hrun, hops⟩ := exec_restrict hs
  exact ⟨s, hrun, hfull, (log_within_area_iff 2 hrun hops).2.2.1 (exec_restrict ht).2⟩

def testRace : List (Fin 3 × Act) :=
  threeBegins ++ logBlocks 0 100 10 ++ logBlocks 1 110 9 ++ logBlocks 2 120 9 ++
    [(1, .logWrite 119), (2, .logWrite 129), (1, .run), (2, .run)]

theorem log_overrun_testRace :
    ∃ s, (exec (step LOGSIZE) (init (Fin 3)) testRace = some s ∧
        EveryStep (step LOGSIZE) (init (Fin 3)) (WithinOp MAXOPBLOCKS) testRace) ∧
      s.lh.length = LOGSIZE := by
  obtain ⟨s, hs, hend⟩ := exec_exists (restrict (WithinOp MAXOPBLOCKS) (step LOGSIZE))
    (init (Fin 3)) testRace (fun s => s.lh.length = LOGSIZE) (by decide +kernel)
  exact ⟨s, exec_restrict hs, hend⟩

end Xv6.Log
