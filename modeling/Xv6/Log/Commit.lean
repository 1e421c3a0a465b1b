import Xv6.Lib.Writes
import Xv6.Log.Header

/-!
The redo log of `log.c`, run by one process: `commit`, `recover_from_log` and
the functions they call, over a disk, the buffer cache and the in-memory log
header.

Every block write goes through `bwrite`, which records it in `issued`; a crash
keeps a prefix of these writes and loses everything that is in memory.
-/

namespace Xv6.Log

open Lib Function
open Prod (fst snd)

structure Area where
  start : ℕ
  size : ℕ
  pos : 0 < size

def Area.Home (log : Area) (b : ℕ) : Prop := ¬(log.start ≤ b ∧ b < log.start + log.size)

instance (log : Area) (b : ℕ) : Decidable (log.Home b) := inferInstanceAs (Decidable (¬_))

def mkfsArea : Area := ⟨2, LOGSIZE, by decide⟩

structure Machine where
  disk : ℕ → Block
  buf : ℕ → Option Block
  lh : List ℕ
  issued : List (ℕ × Block)

def boot (d : ℕ → Block) : Machine := ⟨d, fun _ => none, [], []⟩

def bread (m : Machine) (b : ℕ) : Block := (m.buf b).getD (m.disk b)

def bwrite (m : Machine) (b : ℕ) (data : Block) : Machine :=
  { m with
    disk := update m.disk b data
    buf := update m.buf b (some data)
    issued := m.issued ++ [(b, data)] }

def logWrite (m : Machine) (b : ℕ) (data : Block) : Machine :=
  { m with buf := update m.buf b (some data), lh := absorb m.lh b }

def writeLogLoop (log : Area) (m : Machine) : ℕ → List ℕ → Machine
  | _, [] => m
  | tail, b :: bs =>
    writeLogLoop log (bwrite m (log.start + tail + 1) (bread m b)) (tail + 1) bs

def writeLog (log : Area) (m : Machine) : Machine := writeLogLoop log m 0 m.lh

def installLoop (log : Area) (m : Machine) : ℕ → List ℕ → Machine
  | _, [] => m
  | tail, b :: bs =>
    installLoop log (bwrite m b (bread m (log.start + tail + 1))) (tail + 1) bs

def installTrans (log : Area) (m : Machine) : Machine := installLoop log m 0 m.lh

def readHead (log : Area) (m : Machine) : Machine :=
  { m with lh := loadHead (bread m log.start) }

def writeHead (log : Area) (m : Machine) : Machine :=
  bwrite m log.start (storeHead m.lh (bread m log.start))

def clearLog (log : Area) (m : Machine) : Machine := writeHead log { m with lh := [] }

def commit (log : Area) (m : Machine) : Machine :=
  if 0 < m.lh.length then
    clearLog log (installTrans log (writeHead log (writeLog log m)))
  else m

def recoverFromLog (log : Area) (m : Machine) : Machine :=
  clearLog log (installTrans log (readHead log m))

/-! ### Machines as write lists

Each of the functions above issues a list of writes that the machine it
started from already determines. -/

def Machine.run (m : Machine) (ws : List (ℕ × Block)) : Machine :=
  ws.foldl (fun m w => bwrite m w.1 w.2) m

@[simp] theorem Machine.run_nil (m : Machine) : m.run [] = m := rfl

theorem Machine.run_cons (m : Machine) (w : ℕ × Block) (ws : List (ℕ × Block)) :
    m.run (w :: ws) = (bwrite m w.1 w.2).run ws := rfl

theorem Machine.run_append (m : Machine) (ws vs : List (ℕ × Block)) :
    m.run (ws ++ vs) = (m.run ws).run vs := List.foldl_append

theorem bread_bwrite (m : Machine) (b : ℕ) (data : Block) :
    bread (bwrite m b data) = update (bread m) b data := by
  funext c
  by_cases h : c = b
  · subst h
    simp [bread, bwrite]
  · simp [bread, bwrite, h]

section
variable (m : Machine) (ws : List (ℕ × Block))
include m ws

@[simp] theorem Machine.run_disk : (m.run ws).disk = applyWrites ws m.disk := by
  induction ws generalizing m with
  | nil => rfl
  | cons w ws ih => exact ih _

@[simp] theorem Machine.run_lh : (m.run ws).lh = m.lh := by
  induction ws generalizing m with
  | nil => rfl
  | cons w ws ih => exact ih _

@[simp] theorem Machine.run_issued : (m.run ws).issued = m.issued ++ ws := by
  induction ws generalizing m with
  | nil => simp
  | cons w ws ih =>
    rw [Machine.run_cons, ih]
    simp [bwrite]

theorem Machine.bread_run : bread (m.run ws) = applyWrites ws (bread m) := by
  induction ws generalizing m with
  | nil => rfl
  | cons w ws ih => rw [Machine.run_cons, ih, bread_bwrite, applyWrites_cons]

end

section
variable (log : Area) (m : Machine)

@[simp] theorem clearLog_issued :
    (clearLog log m).issued =
      m.issued ++ [(log.start, storeHead [] (bread m log.start))] := rfl

@[simp] theorem clearLog_disk :
    (clearLog log m).disk =
      update m.disk log.start (storeHead [] (bread m log.start)) := rfl

theorem bread_clearLog :
    bread (clearLog log m) =
      update (bread m) log.start (storeHead [] (bread m log.start)) :=
  bread_bwrite _ _ _

end

def copies (log : Area) : ℕ → List Block → List (ℕ × Block)
  | _, [] => []
  | tail, c :: cs => (log.start + tail + 1, c) :: copies log (tail + 1) cs

def installs (log : Area) (f : ℕ → Block) : ℕ → List ℕ → List (ℕ × Block)
  | _, [] => []
  | tail, b :: bs => (b, f (log.start + tail + 1)) :: installs log f (tail + 1) bs

@[simp] theorem length_copies (log : Area) (tail : ℕ) (cs : List Block) :
    (copies log tail cs).length = cs.length := by
  induction cs generalizing tail with
  | nil => rfl
  | cons c cs ih => simp [copies, ih]

@[simp] theorem length_installs (log : Area) (f : ℕ → Block) (tail : ℕ) (bs : List ℕ) :
    (installs log f tail bs).length = bs.length := by
  induction bs generalizing tail with
  | nil => rfl
  | cons b bs ih => simp [installs, ih]

@[simp] theorem map_fst_installs (log : Area) (f : ℕ → Block) (tail : ℕ) (bs : List ℕ) :
    (installs log f tail bs).map fst = bs := by
  induction bs generalizing tail with
  | nil => rfl
  | cons b bs ih => simp [installs, ih]

variable {log : Area} {tail : ℕ}

theorem mem_map_fst_copies {a : ℕ} {cs : List Block} (h : a ∈ (copies log tail cs).map fst) :
    log.start + tail < a ∧ a ≤ log.start + tail + cs.length := by
  induction cs generalizing tail with
  | nil => simp [copies] at h
  | cons c cs ih =>
    rw [copies, List.map_cons, List.mem_cons] at h
    rw [List.length_cons]
    rcases h with rfl | h
    · exact ⟨by omega, by omega⟩
    · have := ih h
      omega

theorem copies_notMem_home {b : ℕ} {cs : List Block} (hb : log.Home b)
    (hroom : tail + cs.length < log.size) : b ∉ (copies log tail cs).map fst := by
  intro h
  have := mem_map_fst_copies h
  exact hb ⟨by omega, by omega⟩

variable {bs : List ℕ}

theorem installs_congr {f g : ℕ → Block}
    (h : ∀ i < bs.length, f (log.start + (tail + i) + 1) = g (log.start + (tail + i) + 1)) :
    installs log f tail bs = installs log g tail bs := by
  induction bs generalizing tail with
  | nil => rfl
  | cons b bs ih =>
    have h0 : f (log.start + tail + 1) = g (log.start + tail + 1) := h 0 (by simp)
    rw [installs, installs, ih fun i hi => by
      rw [show tail + 1 + i = tail + (i + 1) by omega]
      exact h (i + 1) (by simpa using hi)]
    rw [h0]

theorem installs_copies (f : ℕ → Block) (tail : ℕ) (t : List (ℕ × Block)) :
    installs log (applyWrites (copies log tail (t.map snd)) f) tail (t.map fst) =
      t := by
  induction t generalizing tail f with
  | nil => rfl
  | cons w t ih =>
    rw [List.map_cons, List.map_cons, copies, installs, applyWrites_cons, ih]
    rw [applyWrites_of_notMem fun h => by have := mem_map_fst_copies h; omega, update_self]

theorem writeLogLoop_eq_run {m : Machine} (hhome : ∀ b ∈ bs, log.Home b)
    (hroom : tail + bs.length < log.size) :
    writeLogLoop log m tail bs = m.run (copies log tail (bs.map (bread m))) := by
  induction bs generalizing m tail with
  | nil => rfl
  | cons b bs ih =>
    rw [List.length_cons] at hroom
    have hsame : bs.map (bread (bwrite m (log.start + tail + 1) (bread m b))) =
        bs.map (bread m) := by
      apply List.map_congr_left
      intro c hc
      have hne : c ≠ log.start + tail + 1 := by
        rintro rfl
        exact hhome _ (List.mem_cons_of_mem _ hc) ⟨by omega, by omega⟩
      rw [bread_bwrite, update_of_ne hne]
    rw [writeLogLoop, ih (fun c hc => hhome c (List.mem_cons_of_mem _ hc)) (by omega), hsame]
    rfl

theorem installLoop_eq_run {m : Machine} (hhome : ∀ b ∈ bs, log.Home b)
    (hroom : tail + bs.length < log.size) :
    installLoop log m tail bs = m.run (installs log (bread m) tail bs) := by
  induction bs generalizing m tail with
  | nil => rfl
  | cons b bs ih =>
    rw [List.length_cons] at hroom
    have hsame : installs log (bread (bwrite m b (bread m (log.start + tail + 1)))) (tail + 1)
        bs = installs log (bread m) (tail + 1) bs := by
      apply installs_congr
      intro i hi
      have hne : log.start + (tail + 1 + i) + 1 ≠ b := by
        rintro rfl
        exact hhome _ List.mem_cons_self ⟨by omega, by omega⟩
      rw [bread_bwrite, update_of_ne hne]
    rw [installLoop, ih (fun c hc => hhome c (List.mem_cons_of_mem _ hc)) (by omega), hsame]
    rfl

end Xv6.Log
