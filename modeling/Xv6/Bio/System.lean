import Xv6.Bio.Cache
import Xv6.Log.Commit
import Xv6.Log.Group

namespace Xv6.Bio

open Lib Function
open Option (bind_eq_bind bind_eq_some_iff)
open Log (Area CommitPc)

inductive Io
  | ready
  | getting (b : ℕ) (i : Fin NBUF)
  | filling (b : ℕ) (i : Fin NBUF)
  | releasing (i : Fin NBUF)
  | logging (i : Fin NBUF)
  deriving DecidableEq

structure Thread where
  held : List (Fin NBUF)
  unlogged : List (Fin NBUF)
  regs : List (Fin NBUF)
  io : Io
  line : ℕ

inductive Instr
  | bread (b : ℕ)
  | memmove (dst src : ℕ)
  | fillHead
  | bwrite (r : ℕ)
  | brelse (r : ℕ)
  deriving DecidableEq, Repr

def body (log : Area) (lh : List ℕ) : CommitPc → List Instr
  | .writeLog tail =>
    match lh[tail]? with
    | some b => [.bread (log.start + tail + 1), .bread b, .memmove 0 1, .bwrite 0, .brelse 1,
        .brelse 0]
    | none => []
  | .install tail =>
    match lh[tail]? with
    | some b => [.bread (log.start + tail + 1), .bread b, .memmove 1 0, .bwrite 1, .brelse 0,
        .brelse 0]
    | none => []
  | .writeHead => [.bread log.start, .fillHead, .bwrite 0, .brelse 0]
  | .eraseHead => [.bread log.start, .fillHead, .bwrite 0, .brelse 0]
  | _ => []

structure State (P : Type) where
  log : Log.State P
  cache : Cache P
  thr : P → Thread
  panicked : Option Panic
  stored : ℕ → Block
  installed : ℕ

inductive Act
  | bread (b : ℕ)
  | store (i : Fin NBUF) (data : Block)
  | logWrite (i : Fin NBUF)
  | brelse (i : Fin NBUF)
  | beginOp
  | endOp
  | kill
  | run

variable {P : Type} [DecidableEq P]

def State.setThr (s : State P) (p : P) (t : Thread) : State P :=
  { s with thr := update s.thr p t }

def State.setBuf (s : State P) (i : Fin NBUF) (b : Buf P) : State P :=
  { s with cache := s.cache.set i b }

def State.panic (s : State P) (e : Panic) : State P := { s with panicked := some e }

def getBlock (s : State P) (p : P) (b : ℕ) : State P :=
  match s.cache.bget ROOTDEV b with
  | .ok (i, c) => { s with cache := c }.setThr p { s.thr p with io := .getting b i }
  | .error e => s.panic e

def Thread.keep (t : Thread) (pc : Log.Pc) (i : Fin NBUF) : Thread :=
  match pc with
  | .committing _ => { t with regs := t.regs ++ [i], line := t.line + 1, io := .ready }
  | _ => { t with held := t.held ++ [i], io := .ready }

def fillBlock (s : State P) (p : P) (i : Fin NBUF) : State P :=
  match s.cache.fill p i with
  | .ok c => { s with cache := c }.setThr p ((s.thr p).keep (s.log.pc p) i)
  | .error e => s.panic e

def releaseBlock (s : State P) (p : P) (i : Fin NBUF) (t : Thread) : State P :=
  match s.cache.unlock p i with
  | .ok c => { s with cache := c }.setThr p { t with io := .releasing i }
  | .error e => s.panic e

def installedAfter (c : CommitPc) (n : ℕ) : ℕ :=
  match c with
  | .install _ => n + 1
  | _ => n

def writeBlock (s : State P) (p : P) (c : CommitPc) (i : Fin NBUF) : State P :=
  match s.cache.bwrite p i with
  | .ok cache =>
    { s with cache := cache, installed := installedAfter c s.installed }.setThr p
      { s.thr p with line := (s.thr p).line + 1 }
  | .error e => s.panic e

def execInstr (s : State P) (p : P) (c : CommitPc) (ins : Instr) : Option (State P) :=
  let t := s.thr p
  match ins with
  | .bread b => some (getBlock s p b)
  | .memmove dst src => do
      let i ← t.regs[dst]?
      let j ← t.regs[src]?
      some ((s.setBuf i { s.cache.buf i with data := (s.cache.buf j).data }).setThr p
        { t with line := t.line + 1 })
  | .fillHead => do
      let i ← t.regs[0]?
      some ((s.setBuf i { s.cache.buf i with
        data := Log.storeHead s.log.lh (s.cache.buf i).data }).setThr p
          { t with line := t.line + 1 })
  | .bwrite r => do
      let i ← t.regs[r]?
      some (writeBlock s p c i)
  | .brelse r => do
      let i ← t.regs[r]?
      some (releaseBlock s p i { t with regs := t.regs.eraseIdx r, line := t.line + 1 })

def logStep (log : Area) (s : State P) (p : P) (a : Log.Act) (t : Thread) : Option (State P) :=
  (Log.step log.size s.log (p, a)).map fun l => { s with log := l }.setThr p t

def readyStep (log : Area) (s : State P) (p : P) (a : Act) : Option (State P) :=
  let t := s.thr p
  match a, s.log.pc p with
  | .bread b, .idle => if log.Home b then some (getBlock s p b) else none
  | .bread b, .inOp _ _ => if log.Home b then some (getBlock s p b) else none
  | .brelse i, .idle =>
    if i ∈ t.held ∧ i ∉ t.unlogged then
      some (releaseBlock s p i { t with held := t.held.erase i })
    else none
  | .brelse i, .inOp _ _ =>
    if i ∈ t.held ∧ i ∉ t.unlogged then
      some (releaseBlock s p i { t with held := t.held.erase i })
    else none
  | .store i data, .inOp _ _ =>
    if i ∈ t.held then
      some (({ s with stored := update s.stored (s.cache.buf i).blockno data }.setBuf i
        { s.cache.buf i with data := data }).setThr p { t with unlogged := i :: t.unlogged })
    else none
  | .logWrite i, .inOp _ _ =>
    if i ∈ t.held then
      (Log.step log.size s.log (p, .logWrite (s.cache.buf i).blockno)).map fun l =>
        { s with log := l }.setThr p
          { t with io := if l.panicked.isSome then .ready else .logging i }
    else none
  | .beginOp, .idle => logStep log s p .beginOp t
  | .run, .begin => logStep log s p .run t
  | .kill, .sleeping => logStep log s p .kill t
  | .endOp, .inOp _ _ => if t.unlogged = [] then logStep log s p .endOp t else none
  | .run, .committing c =>
    match (body log s.log.lh c)[t.line]? with
    | some ins => execInstr s p c ins
    | none =>
      (Log.step log.size s.log (p, .run)).map fun l =>
        { s with log := l, installed := if c = CommitPc.clear then 0 else s.installed }.setThr p
          { t with line := 0 }
  | _, _ => none

def step (log : Area) (s : State P) (l : P × Act) : Option (State P) :=
  let p := l.1
  let t := s.thr p
  if s.panicked.isSome ∨ s.log.panicked.isSome then none
  else match t.io, l.2 with
    | .getting b i, .run =>
      if (s.cache.buf i).owner = none then
        some ((s.setBuf i { s.cache.buf i with owner := some p }).setThr p
          { t with io := .filling b i })
      else none
    | .filling _ i, .run => some (fillBlock s p i)
    | .releasing i, .run =>
      some ({ s with cache := s.cache.unref i }.setThr p { t with io := .ready })
    | .logging i, .run =>
      (Log.step log.size s.log (p, .run)).map fun l =>
        ({ s with log := l }.setBuf i { s.cache.buf i with dirty := true }).setThr p
          { t with io := .ready, unlogged := t.unlogged.filter (· ≠ i) }
    | .ready, a => readyStep log s p a
    | _, _ => none

inductive Asks (log : Area) (lh : List ℕ) (pc : Log.Pc) (t : Thread) (b : ℕ) : Prop
  | user : (∀ c, pc ≠ .committing c) → log.Home b → Asks log lh pc t b
  | commit (c : CommitPc) : pc = .committing c → (body log lh c)[t.line]? = some (.bread b) →
      Asks log lh pc t b

inductive Drops (log : Area) (lh : List ℕ) (pc : Log.Pc) (t : Thread) (i : Fin NBUF) :
    Thread → Prop
  | user : (∀ c, pc ≠ .committing c) → i ∈ t.held → i ∉ t.unlogged →
      Drops log lh pc t i { t with held := t.held.erase i, io := .releasing i }
  | commit (c : CommitPc) (r : ℕ) : pc = .committing c →
      (body log lh c)[t.line]? = some (.brelse r) → t.regs[r]? = some i →
      Drops log lh pc t i
        { t with regs := t.regs.eraseIdx r, line := t.line + 1, io := .releasing i }

inductive Copies (s : State P) (t : Thread) : Instr → Fin NBUF → Block → Prop
  | memmove (dst src : ℕ) (i j : Fin NBUF) : t.regs[dst]? = some i → t.regs[src]? = some j →
      Copies s t (.memmove dst src) i (s.cache.buf j).data
  | fillHead (i : Fin NBUF) : t.regs[0]? = some i →
      Copies s t .fillHead i (Log.storeHead s.log.lh (s.cache.buf i).data)

inductive Move (log : Area) (s : State P) (p : P) : State P → Prop
  | panic (e : Panic) : Move log s p (s.panic e)
  | get (b : ℕ) (i : Fin NBUF) (c : Cache P) : (s.thr p).io = .ready →
      Asks log s.log.lh (s.log.pc p) (s.thr p) b → BGet s.cache ROOTDEV b i c →
      Move log s p ({ s with cache := c }.setThr p { s.thr p with io := .getting b i })
  | acquire (b : ℕ) (i : Fin NBUF) : (s.thr p).io = .getting b i →
      (s.cache.buf i).owner = none →
      Move log s p ((s.setBuf i { s.cache.buf i with owner := some p }).setThr p
        { s.thr p with io := .filling b i })
  | fill (b : ℕ) (i : Fin NBUF) (c : Cache P) : (s.thr p).io = .filling b i →
      s.cache.fill p i = .ok c →
      Move log s p ({ s with cache := c }.setThr p ((s.thr p).keep (s.log.pc p) i))
  | unlock (i : Fin NBUF) (t : Thread) : (s.thr p).io = .ready →
      Drops log s.log.lh (s.log.pc p) (s.thr p) i t → (s.cache.buf i).owner = some p →
      Move log s p ((s.setBuf i { s.cache.buf i with owner := none }).setThr p t)
  | unref (i : Fin NBUF) : (s.thr p).io = .releasing i →
      Move log s p ({ s with cache := s.cache.unref i }.setThr p { s.thr p with io := .ready })
  | store (i : Fin NBUF) (data : Block) (e : ℕ) (w : List ℕ) : (s.thr p).io = .ready →
      s.log.pc p = .inOp e w → i ∈ (s.thr p).held →
      Move log s p (({ s with
        stored := update s.stored (s.cache.buf i).blockno data }.setBuf i
          { s.cache.buf i with data := data }).setThr p
            { s.thr p with unlogged := i :: (s.thr p).unlogged })
  | test (i : Fin NBUF) (l : Log.State P) (e : ℕ) (w : List ℕ) : (s.thr p).io = .ready →
      s.log.pc p = .inOp e w → i ∈ (s.thr p).held →
      Log.Move log.size s.log p (.logWrite (s.cache.buf i).blockno) l →
      Move log s p ({ s with log := l }.setThr p
        { s.thr p with io := if l.panicked.isSome then .ready else .logging i })
  | append (i : Fin NBUF) (l : Log.State P) : (s.thr p).io = .logging i →
      Log.Move log.size s.log p .run l →
      Move log s p (({ s with log := l }.setBuf i { s.cache.buf i with dirty := true }).setThr p
        { s.thr p with io := .ready, unlogged := (s.thr p).unlogged.filter (· ≠ i) })
  | logStep (a : Log.Act) (l : Log.State P) : (s.thr p).io = .ready →
      (∀ c, s.log.pc p ≠ .committing c) → (∀ e w b, s.log.pc p ≠ .tested e w b) →
      ((s.log.pc p).op ≠ none → (s.thr p).unlogged = []) → (∀ b, a ≠ .logWrite b) →
      Log.Move log.size s.log p a l →
      Move log s p ({ s with log := l }.setThr p (s.thr p))
  | copy (c : CommitPc) (ins : Instr) (i : Fin NBUF) (data : Block) : (s.thr p).io = .ready →
      s.log.pc p = .committing c → (body log s.log.lh c)[(s.thr p).line]? = some ins →
      Copies s (s.thr p) ins i data →
      Move log s p ((s.setBuf i { s.cache.buf i with data := data }).setThr p
        { s.thr p with line := (s.thr p).line + 1 })
  | bwrite (c : CommitPc) (r : ℕ) (i : Fin NBUF) (cache : Cache P) : (s.thr p).io = .ready →
      s.log.pc p = .committing c →
      (body log s.log.lh c)[(s.thr p).line]? = some (.bwrite r) →
      (s.thr p).regs[r]? = some i → s.cache.bwrite p i = .ok cache →
      Move log s p ({ s with cache := cache, installed := installedAfter c s.installed }.setThr p
        { s.thr p with line := (s.thr p).line + 1 })
  | commit (c : CommitPc) (l : Log.State P) : (s.thr p).io = .ready →
      s.log.pc p = .committing c → (body log s.log.lh c)[(s.thr p).line]? = none →
      Log.Move log.size s.log p .run l →
      Move log s p ({ s with
        log := l, installed := if c = CommitPc.clear then 0 else s.installed }.setThr p
          { s.thr p with line := 0 })

variable {log : Area} {s : State P} {p : P}

section
variable (hio : (s.thr p).io = .ready)
include hio

theorem move_getBlock {b : ℕ}
    (ha : Asks log s.log.lh (s.log.pc p) (s.thr p) b) : Move log s p (getBlock s p b) := by
  unfold getBlock
  split
  · exact .get b _ _ hio ha (bget_eq_ok ‹_›)
  · exact .panic _

theorem move_releaseBlock {i : Fin NBUF} {t : Thread}
    (hd : Drops log s.log.lh (s.log.pc p) (s.thr p) i { t with io := .releasing i }) :
    Move log s p (releaseBlock s p i t) := by
  unfold releaseBlock
  split
  · rename_i hu
    obtain ⟨ho, rfl⟩ := unlock_eq_ok hu
    exact .unlock i _ hio hd ho
  · exact .panic _

variable {t : State P}

theorem move_execInstr {c : CommitPc} {ins : Instr}
    (hpc : s.log.pc p = .committing c) (hins : (body log s.log.lh c)[(s.thr p).line]? = some ins)
    (h : execInstr s p c ins = some t) : Move log s p t := by
  cases ins with
  | bread b =>
    cases h
    exact move_getBlock hio (.commit c hpc hins)
  | memmove dst src =>
    simp only [execInstr, bind_eq_bind, bind_eq_some_iff] at h
    obtain ⟨i, hi, j, hj, h⟩ := h
    cases h
    exact .copy c _ i _ hio hpc hins (.memmove dst src i j hi hj)
  | fillHead =>
    simp only [execInstr, bind_eq_bind, bind_eq_some_iff] at h
    obtain ⟨i, hi, h⟩ := h
    cases h
    exact .copy c _ i _ hio hpc hins (.fillHead i hi)
  | bwrite r =>
    simp only [execInstr, bind_eq_bind, bind_eq_some_iff] at h
    obtain ⟨i, hi, h⟩ := h
    cases h
    unfold writeBlock
    split
    · exact .bwrite c r i _ hio hpc hins hi ‹_›
    · exact .panic _
  | brelse r =>
    simp only [execInstr, bind_eq_bind, bind_eq_some_iff] at h
    obtain ⟨i, hi, h⟩ := h
    cases h
    exact move_releaseBlock hio (.commit c r hpc hins hi)

theorem move_logStep {a : Log.Act}
    (hc : ∀ c, s.log.pc p ≠ .committing c) (ht : ∀ e w b, s.log.pc p ≠ .tested e w b)
    (hu : (s.log.pc p).op ≠ none → (s.thr p).unlogged = []) (ha : ∀ b, a ≠ .logWrite b)
    (h : logStep log s p a (s.thr p) = some t) : Move log s p t := by
  obtain ⟨l, hl, rfl⟩ := Option.map_eq_some_iff.1 h
  exact .logStep a l hio hc ht hu ha (Log.step_move hl).2

theorem move_readyStep {a : Act} (h : readyStep log s p a = some t) : Move log s p t := by
  simp only [readyStep] at h
  split at h
  · -- bread outside an operation
    rename_i hpc
    obtain ⟨hb, ⟨⟩⟩ := Option.ite_none_right_eq_some.1 h
    exact move_getBlock hio (.user (by simp [hpc]) hb)
  · -- bread inside an operation
    rename_i hpc
    obtain ⟨hb, ⟨⟩⟩ := Option.ite_none_right_eq_some.1 h
    exact move_getBlock hio (.user (by simp [hpc]) hb)
  · -- brelse outside an operation
    rename_i hpc
    obtain ⟨hb, ⟨⟩⟩ := Option.ite_none_right_eq_some.1 h
    exact move_releaseBlock hio (.user (by simp [hpc]) hb.1 hb.2)
  · -- brelse inside an operation
    rename_i hpc
    obtain ⟨hb, ⟨⟩⟩ := Option.ite_none_right_eq_some.1 h
    exact move_releaseBlock hio (.user (by simp [hpc]) hb.1 hb.2)
  · rename_i hpc
    obtain ⟨hi, ⟨⟩⟩ := Option.ite_none_right_eq_some.1 h
    exact .store _ _ _ _ hio hpc hi
  · rename_i hpc
    obtain ⟨hi, h⟩ := Option.ite_none_right_eq_some.1 h
    obtain ⟨l, hl, rfl⟩ := Option.map_eq_some_iff.1 h
    exact .test _ l _ _ hio hpc hi (Log.step_move hl).2
  · rename_i hpc
    exact move_logStep hio (by simp [hpc]) (by simp [hpc]) (by simp [hpc, Log.Pc.op]) (by simp) h
  · rename_i hpc
    exact move_logStep hio (by simp [hpc]) (by simp [hpc]) (by simp [hpc, Log.Pc.op]) (by simp) h
  · rename_i hpc
    exact move_logStep hio (by simp [hpc]) (by simp [hpc]) (by simp [hpc, Log.Pc.op]) (by simp) h
  · rename_i hpc
    obtain ⟨hu, h⟩ := Option.ite_none_right_eq_some.1 h
    exact move_logStep hio (by simp [hpc]) (by simp [hpc]) (fun _ => hu) (by simp) h
  · rename_i hpc
    split at h
    · exact move_execInstr hio hpc ‹_› h
    · obtain ⟨l, hl, rfl⟩ := Option.map_eq_some_iff.1 h
      exact .commit _ l hio hpc ‹_› (Log.step_move hl).2
  · cases h

end

theorem step_move {t : State P} {l : P × Act} (h : step log s l = some t) : Move log s l.1 t := by
  simp only [step] at h
  split at h
  · cases h
  split at h
  · rename_i hio _
    obtain ⟨ho, ⟨⟩⟩ := Option.ite_none_right_eq_some.1 h
    exact .acquire _ _ hio ho
  · rename_i hio _
    cases h
    unfold fillBlock
    split
    · exact .fill _ _ _ hio ‹_›
    · exact .panic _
  · rename_i hio _
    cases h
    exact .unref _ hio
  · rename_i hio _
    obtain ⟨l, hl, rfl⟩ := Option.map_eq_some_iff.1 h
    exact .append _ l hio (Log.step_move hl).2
  · exact move_readyStep ‹_› h
  · cases h

end Xv6.Bio
