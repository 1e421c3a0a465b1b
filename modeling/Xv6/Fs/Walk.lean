import Xv6.Fs.Entries

/-!
Path names on the disk.

`walk` and `parent` follow the elements of a path through the entries of the
directories. `namex` finds what they find, and holds a reference to it and to
nothing else.
-/

namespace Xv6.Fs

open Lib Sys

structure WellFormed (sb : Super) (I : ℕ → Dinode) (Φ : ℕ → ℕ → Block) (s : State) : Prop where
  settled : Settled sb I Φ s
  live : Live sb I s
  root : ROOTINO < sb.ninodes
  size : ∀ i < sb.ninodes, (I i).type = T_DIR → (I i).size % 16 = 0
  inum : ∀ i < sb.ninodes, (I i).type = T_DIR → ∀ k < (I i).size / 16,
    inumAt (Φ i) k ≠ 0 → inumAt (Φ i) k < sb.ninodes

def entryNamed (I : ℕ → Dinode) (Φ : ℕ → ℕ → Block) (dp : ℕ) (name : Name) : Option ℕ :=
  slotOf (Φ dp) ((I dp).size / 16) name

def walk (I : ℕ → Dinode) (Φ : ℕ → ℕ → Block) : ℕ → List Name → Option ℕ
  | ip, [] => some ip
  | ip, name :: rest =>
    if (I ip).type ≠ T_DIR then none
    else (entryNamed I Φ ip name).bind fun k => walk I Φ (inumAt (Φ ip) k) rest

def parent (I : ℕ → Dinode) (Φ : ℕ → ℕ → Block) : ℕ → List Name → Option (ℕ × Name)
  | _, [] => none
  | ip, name :: rest =>
    if (I ip).type ≠ T_DIR then none
    else if rest.isEmpty then some (ip, name)
    else (entryNamed I Φ ip name).bind fun k => parent I Φ (inumAt (Φ ip) k) rest

def origin (cwd : ℕ) (path : Path) : ℕ := if path.head? = some slash then ROOTINO else cwd

def goal (I : ℕ → Dinode) (Φ : ℕ → ℕ → Block) (nameiparent : Bool) (ip : ℕ) (names : List Name) :
    Option (ℕ × Name) :=
  if nameiparent then parent I Φ ip names else (walk I Φ ip names).map fun i => (i, [])

def LookupPanic (e : Panic) : Prop := e = .igetNoInodes ∨ e = .noType

variable {sb : Super} {I : ℕ → Dinode} {Φ : ℕ → ℕ → Block} {s0 s1 : State} {m : Multiset ℕ}
  {i ip cwd : ℕ} {names : List Name}

section
variable (h : WellFormed sb I Φ s0)
include h

theorem WellFormed.isDir (hi : i < sb.ninodes)
    (ht : (I i).type = T_DIR) : IsDir sb I i ((I i).size / 16) := by
  have := h.size i hi ht
  exact ⟨hi, ht, by omega⟩

theorem WellFormed.next_lt (hi : i < sb.ninodes) (ht : (I i).type = T_DIR)
    {name : Name} {k : ℕ} (hk : entryNamed I Φ i name = some k) : inumAt (Φ i) k < sb.ninodes := by
  obtain ⟨hlt, hname, -⟩ := slotOf_some hk
  exact h.inum i hi ht k hlt hname.1

theorem Held.put (hi : ip < sb.ninodes) :
    Triple (Held sb I Φ s0 (ip ::ₘ m)) (Fs.iput sb ip) (fun _ => Held sb I Φ s0 m)
      Never := by
  refine (Held.iput h.live hi (Multiset.mem_cons_self ip m)).post fun _ s hs => ?_
  rwa [Multiset.erase_cons_head] at hs

end

theorem Held.lock (hi : ip < sb.ninodes) (hm : ip ∈ m) :
    Triple (Held sb I Φ s0 m) (Fs.ilock sb ip)
      (fun _ s => (I ip).type ≠ 0 ∧ s.valid ip = true ∧ Held sb I Φ s0 m s)
      fun e _ => LookupPanic e :=
  (Held.ilock hi (Nat.add_pos_right _ (Multiset.count_pos.2 hm))).err fun _ _ he => .inr he.1

theorem Held.readType (h : Held sb I Φ s0 m s1) (hi : ip < sb.ninodes)
    (hv : s1.valid ip = true) {E : Panic → State → Prop} :
    Triple (· = s1) (.read fun s => (s.inode ip).type : Op ℕ)
      (fun t s => t = (I ip).type ∧ s = s1) E :=
  .read fun s hs => ⟨by rw [hs, h.settled.inode_eq hi hv], hs⟩

section
variable (h : WellFormed sb I Φ s0)
include h

theorem Held.giveUp {β : Type} (hi : ip < sb.ninodes)
    {Q : Option (ℕ × β) → State → Prop} {E : Panic → State → Prop}
    (hQ : ∀ s, Held sb I Φ s0 m s → Q none s) :
    Triple (Held sb I Φ s0 (ip ::ₘ m)) (do
        Fs.iput sb ip
        pure none) Q E :=
  Prog.Triple.bind ((Held.put h hi).panics _) fun _ => .pure hQ

theorem namexLoop_spec (nameiparent : Bool) (hip : ip < sb.ninodes) :
    Triple (Held sb I Φ s0 (ip ::ₘ m)) (namexLoop sb nameiparent ip names)
      (fun r s => r = goal I Φ nameiparent ip names ∧ Held sb I Φ s0 (found r + m) s)
      fun e _ => LookupPanic e := by
  induction names generalizing ip with
  | nil =>
    unfold namexLoop
    cases nameiparent with
    | true => exact Held.giveUp h hip fun s hs => ⟨rfl, (zero_add m).symm ▸ hs⟩
    | false => exact .pure fun s hs => ⟨rfl, hs⟩
  | cons name rest ih =>
    unfold namexLoop
    refine .bind (Held.lock hip (Multiset.mem_cons_self ip m)) fun _ =>
      .of_state fun s1 hs1 => ?_
    obtain ⟨ht, hv, hheld⟩ := hs1
    refine .bind (hheld.readType hip hv) fun t => .of_and fun htype => ?_
    rw [htype]
    refine .ite (fun hdir => ?_) fun hdir => ?_
    · refine (Held.giveUp h hip fun s hs => ⟨?_, (zero_add m).symm ▸ hs⟩).pre
        fun s hs => by rw [hs]; exact hheld
      cases nameiparent <;> simp [goal, parent, walk, hdir]
    rw [not_not] at hdir
    refine .ite (fun hlast => ?_) fun hlast => ?_
    · rw [Bool.and_eq_true] at hlast
      refine .pure fun s hs => ⟨?_, by rw [hs]; exact hheld⟩
      simp [goal, parent, hdir, hlast.1, hlast.2]
    refine .bind ((dirlookup_spec hheld hv (h.isDir hip hdir)).err fun e _ he => .inl he.1) fun r =>
      .of_and fun hr => ?_
    have hgoal : goal I Φ nameiparent ip (name :: rest) = (entryNamed I Φ ip name).bind
        fun k => goal I Φ nameiparent (inumAt (Φ ip) k) rest := by
      cases nameiparent with
      | true =>
        rw [Bool.true_and] at hlast
        simp [goal, parent, hdir, hlast]
      | false => simp [goal, walk, hdir, Option.map_bind]
    rw [hgoal]
    change r = (entryNamed I Φ ip name).map _ at hr
    rcases hslot : entryNamed I Φ ip name with _ | k
    · rw [hslot] at hr
      subst hr
      refine (Held.giveUp h hip fun s hs => ⟨rfl, (zero_add m).symm ▸ hs⟩).pre fun s hs => ?_
      exact (zero_add (ip ::ₘ m)) ▸ hs.2
    rw [hslot] at hr
    subst hr
    have hlt := h.next_lt hip hdir hslot
    refine .bind (((Held.put (m := inumAt (Φ ip) k ::ₘ m) h hip).panics _).pre
      fun s hs => ?_) fun _ => ih hlt
    rw [Multiset.cons_swap]
    exact hs.2

theorem namex_spec (hcwd : cwd < sb.ninodes) (path : Path)
    (nameiparent : Bool) :
    Triple (Held sb I Φ s0 m) (namex sb cwd path nameiparent)
      (fun r s => r = goal I Φ nameiparent (origin cwd path) (elems path) ∧
        Held sb I Φ s0 (found r + m) s) fun e _ => LookupPanic e := by
  unfold namex origin
  refine .ite (fun habs => ?_) fun hrel => ?_
  · rw [if_pos habs]
    exact .bind (Held.iget.err fun e _ he => .inl he) fun _ => namexLoop_spec h nameiparent h.root
  · rw [if_neg hrel]
    exact .bind (Held.idup.panics _) fun _ => namexLoop_spec h nameiparent hcwd

theorem namei_spec (hcwd : cwd < sb.ninodes) (path : Path) :
    Triple (Held sb I Φ s0 m) (namei sb cwd path)
      (fun r s => r = walk I Φ (origin cwd path) (elems path) ∧
        Held sb I Φ s0 (r.elim 0 (fun i => {i}) + m) s) fun e _ => LookupPanic e := by
  unfold namei
  refine .bind (namex_spec h hcwd path false) fun r => .of_and fun hr => ?_
  have hr : r = (walk I Φ (origin cwd path) (elems path)).map fun i => (i, []) := hr
  rcases hw : walk I Φ (origin cwd path) (elems path) with _ | ip
  · rw [hr, hw]
    exact .pure fun s hs => ⟨rfl, hs⟩
  · rw [hr, hw]
    exact .pure fun s hs => ⟨rfl, hs⟩

end

/-! ### In range -/

variable (h : WellFormed sb I Φ s0)
include h

theorem walk_lt (hip : ip < sb.ninodes) (hw : walk I Φ ip names = some i) : i < sb.ninodes := by
  induction names generalizing ip with
  | nil => exact Option.some.inj hw ▸ hip
  | cons name rest ih =>
    rw [walk] at hw
    split at hw
    · exact absurd hw (Option.some_ne_none i).symm
    · rename_i hdir
      obtain ⟨k, hk, hrest⟩ := Option.bind_eq_some_iff.1 hw
      exact ih (h.next_lt hip (not_not.1 hdir) hk) hrest

theorem parent_isDir (hip : ip < sb.ninodes) {dp : ℕ} {name : Name}
    (hp : parent I Φ ip names = some (dp, name)) : dp < sb.ninodes ∧ (I dp).type = T_DIR := by
  induction names generalizing ip with
  | nil => exact absurd hp (Option.some_ne_none _).symm
  | cons name rest ih =>
    rw [parent] at hp
    split at hp
    · exact absurd hp (Option.some_ne_none _).symm
    rename_i hdir
    rw [not_not] at hdir
    split at hp
    · obtain ⟨rfl, -⟩ := Prod.mk.inj (Option.some.inj hp)
      exact ⟨hip, hdir⟩
    · obtain ⟨k, hk, hrest⟩ := Option.bind_eq_some_iff.1 hp
      exact ih (h.next_lt hip hdir hk) hrest

theorem origin_lt (hcwd : cwd < sb.ninodes) (path : Path) : origin cwd path < sb.ninodes := by
  unfold origin
  split
  · exact h.root
  · exact hcwd

end Xv6.Fs
