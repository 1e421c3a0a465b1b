import Xv6.Log.Commit

namespace Xv6.Log

open Lib Function
open List (append_assoc foldl_cons length_append length_map map_take take_nil)
open Prod (fst snd)

structure Tx (log : Area) where
  writes : List (ℕ × Block)
  nodup : (writes.map Prod.fst).Nodup
  home : ∀ b ∈ writes.map Prod.fst, log.Home b
  fits : writes.length ≤ log.size - 1
  fitsHead : writes.length ≤ LOGSIZE
  isUint : ∀ b ∈ writes.map Prod.fst, b < 2 ^ 32

def stage {log : Area} (m : Machine) (tx : Tx log) : Machine :=
  tx.writes.foldl (fun m w => logWrite m w.1 w.2) m

def transact (log : Area) (m : Machine) (tx : Tx log) : Machine := commit log (stage m tx)

def applyTxs {log : Area} (txs : List (Tx log)) (d : ℕ → Block) : ℕ → Block :=
  applyWrites (txs.flatMap Tx.writes) d

def RecoveryCrash (log : Area) (d d' : ℕ → Block) : Prop :=
  ∃ j, d' = applyWrites ((recoverFromLog log (boot d)).issued.take j) d

def HeadWritten (log : Area) (m : Machine) (txs : List (Tx log)) (i j : ℕ) : Prop :=
  ∃ tx, txs[i]? = some tx ∧ tx.writes ≠ [] ∧
    (writeHead log (writeLog log (stage ((txs.take i).foldl (transact log) m) tx))).issued.length
      ≤ j

structure Recoverable (log : Area) (h d : ℕ → Block) : Prop where
  home : ∀ b ∈ loadHead (d log.start), log.Home b
  room : (loadHead (d log.start)).length < log.size
  redo : ∀ b, log.Home b →
    applyWrites (installs log d 0 (loadHead (d log.start))) d b = h b

theorem Area.start_not_home (log : Area) : ¬log.Home log.start := by
  have := log.pos
  intro h
  exact h ⟨le_rfl, by omega⟩

theorem word_storeHead_nil (hb : Block) : word (storeHead [] hb) 0 = 0 :=
  word_setWord hb (by omega) (Nat.two_pow_pos 32)

theorem loadHead_of_word_eq_zero {hb : Block} (h : word hb 0 = 0) : loadHead hb = [] :=
  loadHead_eq_nil (by simp [headCount, h])

def recoverWrites (log : Area) (d : ℕ → Block) : List (ℕ × Block) :=
  installs log d 0 (loadHead (d log.start)) ++ [(log.start, storeHead [] (d log.start))]

theorem bread_boot (d : ℕ → Block) : bread (boot d) = d := rfl

theorem readHead_lh (log : Area) (m : Machine) :
    (readHead log m).lh = loadHead (bread m log.start) := rfl

theorem readHead_issued (log : Area) (d : ℕ → Block) : (readHead log (boot d)).issued = [] := rfl

theorem readHead_disk (log : Area) (d : ℕ → Block) : (readHead log (boot d)).disk = d := rfl

theorem bread_readHead (log : Area) (m : Machine) : bread (readHead log m) = bread m := by
  funext b
  simp only [bread, readHead]

variable {log : Area} {h d : ℕ → Block}

section
variable (hd : Recoverable log h d)
include hd

theorem recoverFromLog_eq_clearLog :
    recoverFromLog log (boot d) = clearLog log ((readHead log (boot d)).run
      (installs log d 0 (loadHead (d log.start)))) := by
  rw [recoverFromLog, installTrans, readHead_lh, bread_boot,
    installLoop_eq_run hd.home (by rw [Nat.zero_add]; exact hd.room), bread_readHead, bread_boot]

theorem recoverFromLog_writes :
    (recoverFromLog log (boot d)).issued = recoverWrites log d ∧
      (recoverFromLog log (boot d)).disk = applyWrites (recoverWrites log d) d := by
  have hstart : bread ((readHead log (boot d)).run
      (installs log d 0 (loadHead (d log.start)))) log.start = d log.start := by
    rw [Machine.bread_run, applyWrites_of_notMem, bread_readHead, bread_boot]
    rw [map_fst_installs]
    exact fun hm => log.start_not_home (hd.home _ hm)
  rw [recoverFromLog_eq_clearLog hd, clearLog_issued, clearLog_disk, hstart, Machine.run_issued,
    Machine.run_disk, recoverWrites, applyWrites_append, applyWrites_cons, applyWrites_nil,
    readHead_issued, readHead_disk, List.nil_append]
  exact ⟨rfl, rfl⟩

theorem installs_home_ne {a j : ℕ} (ha : ¬log.Home a) :
    a ∉ ((installs log d 0 (loadHead (d log.start))).take j).map fst := by
  intro hm
  rw [map_take, map_fst_installs] at hm
  exact ha (hd.home a (List.mem_of_mem_take hm))

theorem Recoverable.crash {d' : ℕ → Block} (hc : RecoveryCrash log d d') :
    Recoverable log h d' := by
  obtain ⟨j, rfl⟩ := hc
  rw [(recoverFromLog_writes hd).1, recoverWrites]
  rcases Nat.lt_or_ge (loadHead (d log.start)).length j with hj | hj
  · -- all installs and the clearing write are on disk
    rw [List.take_of_length_le (by
      rw [length_append, length_installs, List.length_singleton]; omega),
      applyWrites_append]
    have hnil : loadHead (applyWrites [(log.start, storeHead [] (d log.start))]
        (applyWrites (installs log d 0 (loadHead (d log.start))) d) log.start) = [] := by
      apply loadHead_of_word_eq_zero
      simpa using word_storeHead_nil (d log.start)
    refine ⟨by rw [hnil]; simp, by rw [hnil]; exact log.pos, ?_⟩
    intro b hb
    have hne : b ≠ log.start := fun he => log.start_not_home (he ▸ hb)
    rw [hnil, installs, applyWrites_nil, applyWrites_cons, applyWrites_nil, update_of_ne hne]
    exact hd.redo b hb
  · -- the header and the log copies are as they were, so the replay is the same
    rw [List.take_append_of_le_length (by rwa [length_installs])]
    have hlog : ∀ a, ¬log.Home a →
        applyWrites ((installs log d 0 (loadHead (d log.start))).take j) d a = d a :=
      fun a ha => applyWrites_of_notMem (installs_home_ne hd ha)
    have hhead := hlog log.start log.start_not_home
    have hinst : installs log (applyWrites ((installs log d 0 (loadHead (d log.start))).take j) d) 0
          (loadHead (d log.start)) = installs log d 0 (loadHead (d log.start)) := by
      apply installs_congr
      intro i hi
      have := hd.room
      apply hlog
      intro hb
      exact hb ⟨by omega, by omega⟩
    refine ⟨by rw [hhead]; exact hd.home, by rw [hhead]; exact hd.room, ?_⟩
    intro b hb
    rw [hhead, hinst, applyWrites_take_replay]
    exact hd.redo b hb

theorem Recoverable.crashes {d' : ℕ → Block}
    (hc : Relation.ReflTransGen (RecoveryCrash log) d d') : Recoverable log h d' := by
  induction hc with
  | refl => exact hd
  | tail _ hstep ih => exact ih.crash hstep

theorem Recoverable.done :
    (∀ b, log.Home b → (recoverFromLog log (boot d)).disk b = h b) ∧
      word ((recoverFromLog log (boot d)).disk log.start) 0 = 0 := by
  rw [(recoverFromLog_writes hd).2, recoverWrites, applyWrites_append, applyWrites_cons,
    applyWrites_nil]
  constructor
  · intro b hb
    have hne : b ≠ log.start := fun he => log.start_not_home (he ▸ hb)
    rw [update_of_ne hne]
    exact hd.redo b hb
  · rw [update_self]
    exact word_storeHead_nil _

end

structure Clean (log : Area) (m : Machine) : Prop where
  lh : m.lh = []
  coherent : bread m = m.disk
  head : word (m.disk log.start) 0 = 0

theorem clean_boot (h : word (d log.start) 0 = 0) : Clean log (boot d) := ⟨rfl, rfl, h⟩

def headBlock {log : Area} (d : ℕ → Block) (tx : Tx log) : Block :=
  storeHead (tx.writes.map Prod.fst) (d log.start)

def txWrites {log : Area} (d : ℕ → Block) (tx : Tx log) : List (ℕ × Block) :=
  if tx.writes = [] then []
  else copies log 0 (tx.writes.map Prod.snd) ++
    ((log.start, headBlock d tx) :: (tx.writes ++
      [(log.start, storeHead [] (headBlock d tx))]))

theorem foldl_logWrite (ws : List (ℕ × Block)) (m : Machine) :
    (ws.foldl (fun m w => logWrite m w.1 w.2) m).disk = m.disk ∧
      (ws.foldl (fun m w => logWrite m w.1 w.2) m).issued = m.issued ∧
      bread (ws.foldl (fun m w => logWrite m w.1 w.2) m) = applyWrites ws (bread m) := by
  induction ws generalizing m with
  | nil => exact ⟨rfl, rfl, rfl⟩
  | cons w ws ih =>
    obtain ⟨h1, h2, h3⟩ := ih (logWrite m w.1 w.2)
    refine ⟨h1, h2, ?_⟩
    rw [foldl_cons, h3, applyWrites_cons]
    congr 1
    funext c
    by_cases h : c = w.1
    · subst h
      simp [bread, logWrite]
    · simp [bread, logWrite, h]

theorem foldl_logWrite_lh (ws : List (ℕ × Block)) (m : Machine) (hnd : (m.lh ++ ws.map fst).Nodup) :
    (ws.foldl (fun m w => logWrite m w.1 w.2) m).lh = m.lh ++ ws.map fst := by
  induction ws generalizing m with
  | nil => simp
  | cons w ws ih =>
    rw [List.map_cons, ← List.singleton_append, ← append_assoc] at hnd
    have hw : w.1 ∉ m.lh := fun hm =>
      (List.nodup_append.mp (List.nodup_append.mp hnd).1).2.2 _ hm _ (List.mem_singleton_self _) rfl
    have hlh : (logWrite m w.1 w.2).lh = m.lh ++ [w.1] := absorb_of_notMem hw
    rw [foldl_cons, ih _ (by rwa [hlh]), hlh]
    simp

variable {m : Machine}

section
variable (hm : Clean log m) (tx : Tx log)
include hm tx

theorem stage_lh : (stage m tx).lh = tx.writes.map fst := by
  have h := foldl_logWrite_lh tx.writes m (by rw [hm.lh]; exact tx.nodup)
  rwa [hm.lh] at h

theorem writeLog_stage (hne : tx.writes ≠ []) :
    writeLog log (stage m tx) =
      (stage m tx).run (copies log 0 (tx.writes.map snd)) := by
  have hpos : 0 < tx.writes.length := List.length_pos_of_ne_nil hne
  have hfits := tx.fits
  have hnew : (tx.writes.map fst).map (bread (stage m tx)) = tx.writes.map snd := by
    rw [List.map_map]
    apply List.map_congr_left
    intro w hw
    rw [Function.comp_apply, stage, (foldl_logWrite tx.writes m).2.2,
      applyWrites_of_nodup tx.nodup hw]
  rw [writeLog, stage_lh hm, writeLogLoop_eq_run tx.home (by rw [length_map]; omega), hnew]

theorem headIssued_length (hne : tx.writes ≠ []) :
    (writeHead log (writeLog log (stage m tx))).issued.length =
      m.issued.length + tx.writes.length + 1 := by
  rw [writeLog_stage hm tx hne, writeHead, bwrite, length_append, Machine.run_issued,
    length_append, length_copies, length_map, stage, (foldl_logWrite _ m).2.1]
  rfl

theorem bread_stage : bread (stage m tx) = applyWrites tx.writes m.disk := by
  rw [stage, (foldl_logWrite tx.writes m).2.2, hm.coherent]

end

theorem start_notMem_copies {cs : List Block} : log.start ∉ (copies log 0 cs).map fst := by
  intro h
  have := mem_map_fst_copies h
  omega

theorem start_notMem_writes (tx : Tx log) :
    log.start ∉ tx.writes.map fst := fun h => log.start_not_home (tx.home _ h)

theorem commit_stage (hm : Clean log m) (tx : Tx log) (hne : tx.writes ≠ []) :
    commit log (stage m tx) = clearLog log ((stage m tx).run
      (copies log 0 (tx.writes.map snd) ++
        ((log.start, headBlock m.disk tx) :: tx.writes))) := by
  have hpos : 0 < tx.writes.length := List.length_pos_of_ne_nil hne
  have hfits := tx.fits
  have hstart : bread ((stage m tx).run (copies log 0 (tx.writes.map snd))) log.start =
      m.disk log.start := by
    rw [Machine.bread_run, applyWrites_of_notMem start_notMem_copies, bread_stage hm,
      applyWrites_of_notMem (start_notMem_writes tx)]
  have hhead : writeHead log (writeLog log (stage m tx)) =
      ((stage m tx).run (copies log 0 (tx.writes.map snd))).run
        [(log.start, headBlock m.disk tx)] := by
    rw [writeLog_stage hm tx hne, writeHead, Machine.run_lh, stage_lh hm, hstart]
    rfl
  have hinst : installs log (bread (writeHead log (writeLog log (stage m tx)))) 0
      (tx.writes.map fst) = tx.writes := by
    refine .trans (installs_congr fun i hi => ?_) (installs_copies (bread (stage m tx)) 0 tx.writes)
    rw [hhead, Machine.bread_run, Machine.bread_run, applyWrites_cons, applyWrites_nil,
      update_of_ne (by simp only; omega)]
  have hlen : 0 < (stage m tx).lh.length := by rw [stage_lh hm, length_map]; exact hpos
  have hlh : (writeHead log (writeLog log (stage m tx))).lh = tx.writes.map fst := by
    rw [hhead, Machine.run_lh, Machine.run_lh, stage_lh hm]
  rw [commit, if_pos hlen, installTrans, hlh,
    installLoop_eq_run tx.home (by rw [length_map]; omega), hinst, hhead,
    Machine.run_append, Machine.run_cons]
  rfl

theorem transact_spec (hm : Clean log m) (tx : Tx log) :
    (transact log m tx).issued = m.issued ++ txWrites m.disk tx ∧
      (transact log m tx).disk = applyWrites (txWrites m.disk tx) m.disk ∧
      Clean log (transact log m tx) := by
  by_cases hne : tx.writes = []
  · have hst : stage m tx = m := by rw [stage, hne]; rfl
    have hcm : transact log m tx = m := by
      rw [transact, hst, commit, hm.lh]
      rfl
    rw [hcm, txWrites, if_pos hne]
    exact ⟨(List.append_nil _).symm, rfl, hm⟩
  · have hdisk : (stage m tx).disk = m.disk := (foldl_logWrite tx.writes m).1
    have hiss : (stage m tx).issued = m.issued := (foldl_logWrite tx.writes m).2.1
    have hhead : bread ((stage m tx).run (copies log 0 (tx.writes.map snd) ++
        ((log.start, headBlock m.disk tx) :: tx.writes))) log.start = headBlock m.disk tx := by
      rw [Machine.bread_run, applyWrites_append, applyWrites_cons,
        applyWrites_of_notMem (start_notMem_writes tx), update_self]
    have hw : txWrites m.disk tx = (copies log 0 (tx.writes.map snd) ++
        ((log.start, headBlock m.disk tx) :: tx.writes)) ++
          [(log.start, storeHead [] (headBlock m.disk tx))] := by
      rw [txWrites, if_neg hne]
      simp
    rw [transact, commit_stage hm tx hne]
    refine ⟨?_, ?_, rfl, ?_, ?_⟩
    · rw [clearLog_issued, hhead, Machine.run_issued, hiss, hw, append_assoc]
    · rw [clearLog_disk, hhead, Machine.run_disk, hdisk, hw, applyWrites_append (_ ++ _) [_],
        applyWrites_cons, applyWrites_nil]
    · -- every cached block has been written through
      rw [bread_clearLog, clearLog_disk, hhead, Machine.bread_run, Machine.run_disk, hdisk,
        bread_stage hm]
      congr 1
      funext a
      by_cases ha : a ∈ tx.writes.map fst
      · apply applyWrites_of_mem
        simp [ha]
      · exact applyWrites_congr (applyWrites_of_notMem ha)
    · rw [clearLog_disk, hhead, update_self]
      exact word_storeHead_nil _

theorem recoverable_of_head_zero (h0 : word (d log.start) 0 = 0)
    (hh : ∀ b, log.Home b → d b = h b) :
    Recoverable log h d := by
  have hnil := loadHead_of_word_eq_zero h0
  refine ⟨by rw [hnil]; simp, by rw [hnil]; exact log.pos, ?_⟩
  intro b hb
  rw [hnil]
  exact hh b hb

def committed {log : Area} (d : ℕ → Block) (tx : Tx log) : ℕ → Block :=
  update (applyWrites (copies log 0 (tx.writes.map Prod.snd)) d) log.start
    (headBlock d tx)

section
variable (d) (tx : Tx log)

theorem loadHead_committed : loadHead (committed d tx log.start) = tx.writes.map fst := by
  rw [committed, update_self, headBlock,
    loadHead_storeHead _ (by rw [length_map]; exact tx.fitsHead) tx.isUint]

theorem installs_committed : installs log (committed d tx) 0 (tx.writes.map fst) = tx.writes := by
  refine .trans (installs_congr fun i hi => ?_) (installs_copies d 0 tx.writes)
  rw [committed, update_of_ne (by omega)]

theorem committed_recoverable (hne : tx.writes ≠ []) :
    Recoverable log (applyWrites tx.writes d) (committed d tx) := by
  have hpos : 0 < tx.writes.length := List.length_pos_of_ne_nil hne
  have hfits := tx.fits
  refine ⟨?_, ?_, ?_⟩
  · rw [loadHead_committed]
    exact tx.home
  · rw [loadHead_committed, length_map]
    omega
  intro b hb
  have hstart : b ≠ log.start := fun he => log.start_not_home (he ▸ hb)
  have hcopies : b ∉ (copies log 0 (tx.writes.map snd)).map fst :=
    copies_notMem_home hb (by rw [length_map]; omega)
  rw [loadHead_committed, installs_committed]
  apply applyWrites_congr
  rw [committed, update_of_ne hstart, applyWrites_of_notMem hcopies]

end

theorem txWrites_take_recoverable (tx : Tx log) (h0 : word (d log.start) 0 = 0) (j : ℕ) :
    Recoverable log (if tx.writes.length < j then applyWrites tx.writes d else d)
      (applyWrites ((txWrites d tx).take j) d) := by
  by_cases hne : tx.writes = []
  · rw [txWrites, if_pos hne, take_nil, applyWrites_nil, hne, applyWrites_nil, ite_self]
    exact recoverable_of_head_zero h0 fun b _ => rfl
  have hpos : 0 < tx.writes.length := List.length_pos_of_ne_nil hne
  have hfits := tx.fits
  rw [txWrites, if_neg hne]
  split
  · -- past the commit point the writes are those of a recovery
    rename_i hj
    obtain ⟨k, rfl⟩ : ∃ k, j = tx.writes.length + (k + 1) := ⟨j - tx.writes.length - 1, by omega⟩
    have hsplit : (copies log 0 (tx.writes.map snd) ++ ((log.start, headBlock d tx) ::
        (tx.writes ++ [(log.start, storeHead [] (headBlock d tx))]))).take
          (tx.writes.length + (k + 1)) =
        copies log 0 (tx.writes.map snd) ++ (log.start, headBlock d tx) ::
          ((recoverWrites log (committed d tx)).take k) := by
      rw [List.take_append, length_copies, length_map, List.take_of_length_le
        (by rw [length_copies, length_map]; omega), Nat.add_sub_cancel_left,
        List.take_succ_cons, recoverWrites, loadHead_committed, installs_committed, committed,
        update_self]
    have hrec := committed_recoverable d tx hne
    rw [hsplit, applyWrites_append, applyWrites_cons]
    exact hrec.crash ⟨_, by rw [(recoverFromLog_writes hrec).1]; rfl⟩
  · -- before it the header is still empty and no home block has changed
    rename_i hj
    rw [List.take_append_of_le_length (by rw [length_copies, length_map]; omega)]
    have hkeep : ∀ a, a ∉ (copies log 0 (tx.writes.map snd)).map fst →
        applyWrites ((copies log 0 (tx.writes.map snd)).take j) d a = d a := by
      intro a ha
      apply applyWrites_of_notMem
      rw [map_take]
      exact fun hm => ha (List.mem_of_mem_take hm)
    apply recoverable_of_head_zero
    · rw [hkeep _ start_notMem_copies]
      exact h0
    · intro b hb
      exact hkeep b (copies_notMem_home hb (by rw [length_map]; omega))

def runWrites {log : Area} (d : ℕ → Block) : List (Tx log) → List (ℕ × Block)
  | [] => []
  | tx :: txs => txWrites d tx ++ runWrites (applyWrites (txWrites d tx) d) txs

theorem transact_run (hm : Clean log m) (txs : List (Tx log)) :
    (txs.foldl (transact log) m).issued = m.issued ++ runWrites m.disk txs ∧
      Clean log (txs.foldl (transact log) m) := by
  induction txs generalizing m with
  | nil => exact ⟨by simp [runWrites], hm⟩
  | cons tx txs ih =>
    obtain ⟨hiss, hdisk, hclean⟩ := transact_spec hm tx
    obtain ⟨ihiss, ihclean⟩ := ih hclean
    refine ⟨?_, ihclean⟩
    rw [foldl_cons, ihiss, hiss, hdisk, runWrites, append_assoc]

theorem Recoverable.congr {h' : ℕ → Block} (hd : Recoverable log h d)
    (hh : ∀ b, log.Home b → h b = h' b) : Recoverable log h' d :=
  ⟨hd.home, hd.room, fun b hb => (hd.redo b hb).trans (hh b hb)⟩

theorem transact_home (hm : Clean log m) (tx : Tx log) {b : ℕ} (hb : log.Home b) :
    (transact log m tx).disk b = applyWrites tx.writes m.disk b := by
  obtain ⟨-, hdisk, hclean⟩ := transact_spec hm tx
  by_cases hne : tx.writes = []
  · rw [hdisk, txWrites, if_pos hne, hne]
  have hlen : tx.writes.length < (txWrites m.disk tx).length := by
    rw [txWrites, if_neg hne]
    simp only [length_append, length_copies, length_map, List.length_cons]
    omega
  have hrec := (txWrites_take_recoverable tx hm.head (txWrites m.disk tx).length).redo b hb
  rw [if_pos hlen, List.take_length, ← hdisk, loadHead_of_word_eq_zero hclean.head] at hrec
  exact hrec

theorem run_take_recoverable (hm : Clean log m) (txs : List (Tx log)) (j : ℕ) :
    ∃ k ≤ txs.length, (∀ i, HeadWritten log m txs i (m.issued.length + j) → i < k) ∧
      Recoverable log (applyTxs (txs.take k) m.disk)
        (applyWrites ((runWrites m.disk txs).take j) m.disk) := by
  induction txs generalizing m j with
  | nil =>
    refine ⟨0, le_rfl, ?_, ?_⟩
    · rintro i ⟨tx, htx, -⟩
      simp at htx
    · simp only [runWrites, take_nil, applyWrites_nil]
      exact recoverable_of_head_zero hm.head fun b _ => rfl
  | cons tx txs ih =>
    obtain ⟨hiss, hdisk, hclean⟩ := transact_spec hm tx
    have hlen : (transact log m tx).issued.length =
        m.issued.length + (txWrites m.disk tx).length := by rw [hiss, length_append]
    rcases Nat.lt_or_ge (txWrites m.disk tx).length j with hj | hj
    · -- the first transaction is complete: the crash is in the rest of the run
      obtain ⟨k, hk, hreach, hrec⟩ := ih hclean (j - (txWrites m.disk tx).length)
      refine ⟨k + 1, by simpa using hk, ?_, ?_⟩
      · rintro i ⟨t, ht, hne, hle⟩
        cases i with
        | zero => omega
        | succ i =>
          refine Nat.succ_lt_succ (hreach i ⟨t, by simpa using ht, hne, ?_⟩)
          rw [hlen]
          refine le_trans hle ?_
          omega
      · rw [runWrites, List.take_append, List.take_of_length_le hj.le, applyWrites_append, ← hdisk]
        refine hrec.congr fun b hb => ?_
        rw [List.take_succ_cons, applyTxs, applyTxs, List.flatMap_cons, applyWrites_append]
        exact applyWrites_congr (transact_home hm tx hb)
    · -- the crash is inside the first commit
      have hrec := txWrites_take_recoverable tx hm.head j
      refine ⟨if tx.writes.length < j then 1 else 0, by split <;> simp, ?_, ?_⟩
      · rintro i ⟨t, ht, hne, hle⟩
        cases i with
        | zero =>
          obtain rfl : tx = t := by simpa using ht
          rw [List.take_zero, List.foldl_nil, headIssued_length hm tx hne] at hle
          rw [if_pos (by omega)]
          exact Nat.one_pos
        | succ i =>
          exfalso
          obtain ⟨hiss', hclean'⟩ := transact_run hclean (txs.take i)
          rw [List.take_succ_cons, foldl_cons, headIssued_length hclean' t hne, hiss',
            length_append, hlen] at hle
          omega
      · rw [runWrites, List.take_append_of_le_length hj]
        refine hrec.congr fun b hb => ?_
        split
        · simp [applyTxs]
        · rfl

theorem commit_crash_atomic (log : Area) (d : ℕ → Block) (h0 : word (d log.start) 0 = 0)
    (txs : List (Tx log)) (j : ℕ) (d' : ℕ → Block)
    (hcrash : Relation.ReflTransGen (RecoveryCrash log)
      (applyWrites ((txs.foldl (transact log) (boot d)).issued.take j) d) d') :
    ∃ k ≤ txs.length, (∀ i, HeadWritten log (boot d) txs i j → i < k) ∧
      (∀ b, log.Home b →
        (recoverFromLog log (boot d')).disk b = applyTxs (txs.take k) d b) ∧
      word ((recoverFromLog log (boot d')).disk log.start) 0 = 0 := by
  have hm := clean_boot h0
  obtain ⟨k, hk, hreach, hrec⟩ := run_take_recoverable hm txs j
  have hissued : (txs.foldl (transact log) (boot d)).issued = runWrites d txs :=
    (transact_run hm txs).1
  rw [hissued] at hcrash
  have hdone := (hrec.crashes hcrash).done
  refine ⟨k, hk, ?_, hdone.1, hdone.2⟩
  intro i hi
  exact hreach i (by simpa [boot] using hi)

def oneBlockTx (data : Block) : Tx mkfsArea where
  writes := [(100, data)]
  nodup := by simp
  home := by simp [mkfsArea, Area.Home, LOGSIZE, MAXOPBLOCKS]
  fits := by simp [mkfsArea, LOGSIZE, MAXOPBLOCKS]
  fitsHead := by simp [LOGSIZE, MAXOPBLOCKS]
  isUint := by simp

theorem commit_crash_atomic_oneBlock :
    let d : ℕ → Block := fun _ => zeros
    let cut := applyWrites (([oneBlockTx (fun _ => 7)].foldl (transact mkfsArea)
      (boot d)).issued.take 2) d
    let cut' := applyWrites ((recoverFromLog mkfsArea (boot cut)).issued.take 1) cut
    ∃ k ≤ 1, (∀ i, HeadWritten mkfsArea (boot d) [oneBlockTx (fun _ => 7)] i 2 → i < k) ∧
      (∀ b, mkfsArea.Home b → (recoverFromLog mkfsArea (boot cut')).disk b =
        applyTxs ([oneBlockTx (fun _ => 7)].take k) d b) ∧
      word ((recoverFromLog mkfsArea (boot cut')).disk mkfsArea.start) 0 = 0 :=
  commit_crash_atomic mkfsArea (fun _ => zeros) (word_zeros 0) [oneBlockTx (fun _ => 7)] 2 _
    (.single ⟨1, rfl⟩)

end Xv6.Log
