import Xv6.Lib.Zoom
import Xv6.Sys.Look

/-!
What looking up a path does to the reference counts and the locks, exactly.

The loop of `namex` has one reference, to the inode reached, and takes the
next one before it gives this one back. It holds one lock at a time.
-/

namespace Xv6.Sys

open Lib Function

variable {P α : Type} {sb : Super} {s s' : Fs P} {c : ℕ → ℕ} {ip : ℕ}

theorem Fs.ref_iget (s : Fs P) (i : ℕ) : (s.iget i).ref = plus s.ref i :=
  funext fun j => Fs.iget_ref s i j

theorem Fs.ref_put (h : s.ref = plus c ip) : ((s.reap ip).drop ip).ref = c := by
  have hdrop : ((s.reap ip).drop ip).ref = update s.ref ip (s.ref ip - 1) := by
    rw [← Fs.reap_ref (s := s) ip]
    rfl
  rw [hdrop, h]
  funext j
  by_cases hj : j = ip
  · subst hj
    rw [update_self, plus, if_pos rfl, Nat.add_sub_cancel]
  · rw [update_of_ne hj, plus, if_neg hj, Nat.add_zero]

theorem seq_ilock_any {Q : Unit → Fs P → Prop} (hQ : Q () (s.load ip)) :
    Seq False (ilock ip) Q s := by
  show Prog.wp _ (if _ then _ else _) _ _
  split
  · exact may_of_ne (by decide) (by decide)
  · show Prog.wp _ (if _ then _ else _) _ _
    split
    · exact ⟨by decide, False.elim⟩
    · exact hQ

def Found (c : ℕ → ℕ) (s : Fs P) (r : Option (ℕ × Name)) (s' : Fs P) : Prop :=
  SameUse s s' ∧ s'.ref = r.elim c fun x => plus c x.1

theorem seq_namexLoop_refs {par : Bool} {names : List Name} (h : s.ref = plus c ip) :
    Seq False (namexLoop sb par ip names) (Found c s) s := by
  induction names generalizing ip s with
  | nil =>
    unfold namexLoop
    split
    · exact seq_bind (seq_iput ⟨sameUse_put s ip, Fs.ref_put h⟩)
    · exact ⟨.refl s, h⟩
  | cons name rest ih =>
    unfold namexLoop
    have hload := sameUse_load s ip
    have hfail : Seq False (iunlockput .iput ip >>= fun _ => pure none) (Found c s) (s.load ip) :=
      seq_bind (seq_iunlockput ⟨hload.trans (sameUse_put _ ip), Fs.ref_put h⟩)
    refine seq_bind (seq_ilock_any (seq_bind ?_))
    show Seq False (if _ then _ else _) _ (s.load ip)
    split
    · exact hfail
    split
    · exact seq_bind (seq_iunlock ⟨hload, h⟩)
    refine seq_bind (seq_dirlookup (fun _ _ => hfail) fun _ n _ => ?_)
    refine seq_bind (seq_iunlockput ?_)
    generalize ((s.load ip).entry ip n).inum = next
    have hnext : ((s.load ip).iget next).ref = plus (plus c next) ip := by
      rw [Fs.ref_iget, plus_comm, ← h]
      rfl
    refine Prog.wp_mono (ih (Fs.ref_put hnext)) fun r s' hr => ⟨?_, hr.2⟩
    exact hload.trans ((sameUse_iget _ next).trans ((sameUse_put _ ip).trans hr.1))

theorem seq_namei_refs {p : P} {path : Path} :
    Seq False (namei sb p path)
      (fun r s' => SameUse s s' ∧ s'.ref = r.elim s.ref (plus s.ref)) s := by
  refine seq_bind (Prog.wp_mono (Q := Found s.ref s) ?_ fun r s' hr => ?_)
  · unfold namex
    split
    · refine seq_bind (seq_iget (Prog.wp_mono (seq_namexLoop_refs (Fs.ref_iget s ROOTINO))
        fun r s' hr => ⟨(sameUse_iget s ROOTINO).trans hr.1, hr.2⟩))
    · refine seq_bind (Prog.wp_read _ |>.2 (seq_bind ?_))
      have hdup : SameUse s (s.idup (s.cwd p)) := ⟨rfl, rfl, rfl, rfl⟩
      exact Prog.wp_mono (Q := Found s.ref (s.idup (s.cwd p)))
        (seq_namexLoop_refs (s.ref_idup (s.cwd p))) fun r s' hr => ⟨hdup.trans hr.1, hr.2⟩
  · cases r with
    | none => exact hr
    | some x => exact hr

/-! ### Locks -/

variable {Q : α → Finset ℕ → Prop} {H : Finset ℕ}

theorem locks_ilock {Q : Unit → Finset ℕ → Prop} (h : Q () {ip}) :
    (ilock ip : Op P Unit).Locks Q ∅ := by
  intro s
  show Prog.Locks Q (if _ then _ else _) _
  split
  · trivial
  refine ⟨Finset.notMem_empty ip, fun s => ?_⟩
  show Prog.Locks Q (if _ then _ else _) _
  split
  · trivial
  · exact h

theorem locks_iunlock {Q : Unit → Finset ℕ → Prop} (h : Q () ∅) :
    (iunlock ip : Op P Unit).Locks Q {ip} := by
  intro s
  show Prog.Locks Q (if _ then _ else _) _
  split
  · trivial
  · show Q () (({ip} : Finset ℕ).erase ip)
    rwa [Finset.erase_singleton]

theorem locks_iput {site : Site} {Q : Unit → Finset ℕ → Prop} (h : Q () ∅) :
    (iput site ip : Op P Unit).Locks Q ∅ := by
  refine ⟨Finset.notMem_empty ip, fun s t => ?_⟩
  show Q () ((insert ip ∅ : Finset ℕ).erase ip)
  rwa [Finset.erase_insert (Finset.notMem_empty ip)]

theorem locks_iunlockput {site : Site} {Q : Unit → Finset ℕ → Prop} (h : Q () ∅) :
    (iunlockput site ip : Op P Unit).Locks Q {ip} :=
  locks_bind (locks_iunlock (locks_iput h))

theorem locks_iget {Q : Unit → Finset ℕ → Prop} (h : Q () H) :
    (iget sb ip : Op P Unit).Locks Q H := by
  intro s
  show Prog.Locks Q (if _ then _ else _) _
  split
  · trivial
  · exact h

theorem locks_dirlookup {dp : ℕ} {name : Name} {Q : Option (ℕ × ℕ) → Finset ℕ → Prop}
    (h : ∀ r, Q r H) : (dirlookup sb dp name : Op P (Option (ℕ × ℕ))).Locks Q H := by
  intro s
  show Prog.Locks Q (if _ then _ else _) _
  split
  · trivial
  · split
    · exact h none
    · exact locks_bind (locks_iget (h _))

theorem locks_namexLoop {par : Bool} {names : List Name} {Q : Option (ℕ × Name) → Finset ℕ → Prop}
    (h : ∀ r, Q r ∅) : (namexLoop sb par ip names : Op P (Option (ℕ × Name))).Locks Q ∅ := by
  induction names generalizing ip with
  | nil =>
    unfold namexLoop
    split
    · exact locks_bind (locks_iput (h none))
    · exact h _
  | cons name rest ih =>
    unfold namexLoop
    refine locks_bind (locks_ilock (locks_bind fun s => ?_))
    show Prog.Locks Q (if _ then _ else _) {ip}
    split
    · exact locks_bind (locks_iunlockput (h none))
    split
    · exact locks_bind (locks_iunlock (h _))
    · refine locks_bind (locks_dirlookup fun r => ?_)
      cases r with
      | none => exact locks_bind (locks_iunlockput (h none))
      | some x => exact locks_bind (locks_iunlockput ih)

theorem locks_namex {p : P} {path : Path} {par : Bool} {Q : Option (ℕ × Name) → Finset ℕ → Prop}
    (h : ∀ r, Q r ∅) : (namex sb p path par : Op P (Option (ℕ × Name))).Locks Q ∅ := by
  unfold namex
  split
  · exact locks_bind (locks_iget (locks_namexLoop h))
  · exact locks_bind fun s => locks_bind fun s => locks_namexLoop h

theorem locks_namei {p : P} {path : Path} {Q : Option ℕ → Finset ℕ → Prop} (h : ∀ r, Q r ∅) :
    (namei sb p path : Op P (Option ℕ)).Locks Q ∅ := by
  refine locks_bind (locks_namex fun r => ?_)
  cases r with
  | none => exact h none
  | some x => exact h (some x.1)

end Xv6.Sys
