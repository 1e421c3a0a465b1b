import Xv6.Param
import Mathlib.Data.Fintype.Basic

/-!
The buffer cache of `bio.c` over the disk of `ide.c`.

`bget` is cut into its critical section of `bcache.lock`, which finds or
recycles a buffer and takes a reference, and the `acquiresleep` that follows;
`brelse` is cut into its `releasesleep` and its critical section. `iderw` is
one transfer: its caller holds the buffer's sleep lock and a reference from
before the request is queued until after the disk has answered.
-/

namespace Xv6.Bio

open Function

structure Buf (P : Type) where
  dev : ℕ
  blockno : ℕ
  valid : Bool
  dirty : Bool
  refcnt : ℕ
  owner : Option P
  data : Block

structure Cache (P : Type) where
  buf : Fin NBUF → Buf P
  order : List (Fin NBUF)
  disk : ℕ → Block

inductive Panic
  | noBuffers
  | bwrite
  | brelse
  | notLocked
  | nothingToDo
  deriving DecidableEq, Repr

def Panic.message : Panic → String
  | .noBuffers => "bget: no buffers"
  | .bwrite => "bwrite"
  | .brelse => "brelse"
  | .notLocked => "iderw: buf not locked"
  | .nothingToDo => "iderw: nothing to do"

variable {P : Type}

def Cache.set (c : Cache P) (i : Fin NBUF) (b : Buf P) : Cache P :=
  { c with buf := update c.buf i b }

def binit (d : ℕ → Block) : Cache P where
  buf := fun _ => ⟨0, 0, false, false, 0, none, Lib.zeros⟩
  order := (List.finRange NBUF).reverse
  disk := d

def Cache.Caches (c : Cache P) (i : Fin NBUF) (dev blockno : ℕ) : Prop :=
  (c.buf i).dev = dev ∧ (c.buf i).blockno = blockno

instance (c : Cache P) (i : Fin NBUF) (dev blockno : ℕ) : Decidable (c.Caches i dev blockno) :=
  inferInstanceAs (Decidable (_ ∧ _))

def Cache.lookup (c : Cache P) (dev blockno : ℕ) : Option (Fin NBUF) :=
  c.order.find? fun i => decide (c.Caches i dev blockno)

def Cache.victim (c : Cache P) : Option (Fin NBUF) :=
  c.order.reverse.find? fun i => decide ((c.buf i).refcnt = 0 ∧ (c.buf i).dirty = false)

def Cache.bget (c : Cache P) (dev blockno : ℕ) : Except Panic (Fin NBUF × Cache P) :=
  match c.lookup dev blockno with
  | some i => .ok (i, c.set i { c.buf i with refcnt := (c.buf i).refcnt + 1 })
  | none =>
    match c.victim with
    | some i => .ok (i, c.set i { c.buf i with
        dev := dev, blockno := blockno, valid := false, dirty := false, refcnt := 1 })
    | none => .error .noBuffers

section
variable [DecidableEq P]

def Cache.iderw (c : Cache P) (p : P) (i : Fin NBUF) : Except Panic (Cache P) :=
  if (c.buf i).owner ≠ some p then .error .notLocked
  else if (c.buf i).valid = true ∧ (c.buf i).dirty = false then .error .nothingToDo
  else if (c.buf i).dirty then
    .ok { c.set i { c.buf i with dirty := false, valid := true } with
      disk := update c.disk (c.buf i).blockno (c.buf i).data }
  else .ok (c.set i { c.buf i with data := c.disk (c.buf i).blockno, valid := true })

def Cache.fill (c : Cache P) (p : P) (i : Fin NBUF) : Except Panic (Cache P) :=
  if (c.buf i).valid then .ok c else c.iderw p i

def Cache.bwrite (c : Cache P) (p : P) (i : Fin NBUF) : Except Panic (Cache P) :=
  if (c.buf i).owner ≠ some p then .error .bwrite
  else (c.set i { c.buf i with dirty := true }).iderw p i

def Cache.unlock (c : Cache P) (p : P) (i : Fin NBUF) : Except Panic (Cache P) :=
  if (c.buf i).owner ≠ some p then .error .brelse
  else .ok (c.set i { c.buf i with owner := none })

end

def Cache.unref (c : Cache P) (i : Fin NBUF) : Cache P :=
  let c := c.set i { c.buf i with refcnt := (c.buf i).refcnt - 1 }
  if (c.buf i).refcnt = 0 then { c with order := i :: c.order.erase i } else c

/-! ### What the operations do -/

@[simp] theorem buf_set_self (c : Cache P) (i : Fin NBUF) (b : Buf P) : (c.set i b).buf i = b :=
  update_self ..

variable {i j : Fin NBUF}

theorem buf_set_of_ne (c : Cache P) (b : Buf P) (h : j ≠ i) :
    (c.set i b).buf j = c.buf j := update_of_ne h ..

section
variable (c : Cache P) (i)

@[simp] theorem disk_set (b : Buf P) : (c.set i b).disk = c.disk :=
  rfl

@[simp] theorem order_set (b : Buf P) :
    (c.set i b).order = c.order := rfl

@[simp] theorem set_set (b b' : Buf P) : (c.set i b).set i b' = c.set i b' := by
  simp [Cache.set]

end

variable {c c' : Cache P}

theorem caches_congr (hdev : (c'.buf j).dev = (c.buf j).dev)
    (hblk : (c'.buf j).blockno = (c.buf j).blockno) (dev b : ℕ) :
    c'.Caches j dev b ↔ c.Caches j dev b := by
  rw [Cache.Caches, Cache.Caches, hdev, hblk]

theorem forall_set {b : Buf P} {Q : Fin NBUF → Buf P → Prop} (hi : Q i b)
    (hj : ∀ j, j ≠ i → Q j (c.buf j)) (j : Fin NBUF) : Q j ((c.set i b).buf j) := by
  by_cases h : j = i
  · subst h
    rwa [buf_set_self]
  · rw [buf_set_of_ne c b h]
    exact hj j h

inductive BGet (c : Cache P) (dev blockno : ℕ) (i : Fin NBUF) : Cache P → Prop
  | hit : c.Caches i dev blockno →
      BGet c dev blockno i (c.set i { c.buf i with refcnt := (c.buf i).refcnt + 1 })
  | recycle : (∀ j ∈ c.order, ¬c.Caches j dev blockno) → (c.buf i).refcnt = 0 →
      (c.buf i).dirty = false →
      BGet c dev blockno i (c.set i { c.buf i with
        dev := dev, blockno := blockno, valid := false, dirty := false, refcnt := 1 })

theorem bget_eq_ok {dev blockno : ℕ} (h : c.bget dev blockno = .ok (i, c')) :
    BGet c dev blockno i c' := by
  unfold Cache.bget at h
  split at h
  · rename_i hl
    cases h
    exact .hit (by simpa using List.find?_some hl)
  rename_i hl
  split at h
  · rename_i hv
    cases h
    have hfree : (c.buf i).refcnt = 0 ∧ (c.buf i).dirty = false := by
      simpa using List.find?_some hv
    refine .recycle (fun j hj => ?_) hfree.1 hfree.2
    simpa using List.find?_eq_none.1 hl j hj
  · cases h

theorem unref_buf (c : Cache P) (i : Fin NBUF) :
    (c.unref i).buf = (c.set i { c.buf i with refcnt := (c.buf i).refcnt - 1 }).buf := by
  simp only [Cache.unref]
  split <;> rfl

theorem unref_disk (c : Cache P) (i : Fin NBUF) : (c.unref i).disk = c.disk := by
  simp only [Cache.unref]
  split <;> rfl

theorem mem_order_unref (h : j ∈ c.order) : j ∈ (c.unref i).order := by
  simp only [Cache.unref]
  split
  · by_cases hj : j = i
    · exact List.mem_cons.2 (.inl hj)
    · exact List.mem_cons_of_mem _ ((List.mem_erase_of_ne hj).2 h)
  · exact h

variable [DecidableEq P] {p : P}

theorem fill_eq_ok (h : c.fill p i = .ok c') (hd : (c.buf i).dirty = true → (c.buf i).valid = true)
    :
    (c.buf i).valid = true ∧ c' = c ∨ (c.buf i).valid = false ∧
      c' = c.set i { c.buf i with
        data := c.disk (c.buf i).blockno, valid := true, dirty := false } := by
  unfold Cache.fill at h
  split at h
  · rename_i hv
    cases h
    exact .inl ⟨hv, rfl⟩
  rename_i hv
  have hnd : (c.buf i).dirty = false := by
    simpa using fun hdirty => hv (hd hdirty)
  refine .inr ⟨by simpa using hv, ?_⟩
  unfold Cache.iderw at h
  split at h
  · cases h
  · simp only [hv, hnd, Bool.false_eq_true, false_and, if_false] at h
    cases h
    rfl

theorem bwrite_eq_ok (h : c.bwrite p i = .ok c') :
    c' = { c.set i { c.buf i with dirty := false, valid := true } with
      disk := update c.disk (c.buf i).blockno (c.buf i).data } := by
  unfold Cache.bwrite Cache.iderw at h
  split at h
  · cases h
  · rename_i ho
    simp only [buf_set_self, ho, if_false] at h
    simpa using h.symm

theorem unlock_eq_ok (h : c.unlock p i = .ok c') :
    (c.buf i).owner = some p ∧ c' = c.set i { c.buf i with owner := none } := by
  unfold Cache.unlock at h
  split at h
  · cases h
  · rename_i ho
    cases h
    exact ⟨by simpa using ho, rfl⟩

end Xv6.Bio
