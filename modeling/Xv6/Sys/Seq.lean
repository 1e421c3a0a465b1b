import Xv6.Sys.Orderly

/-!
The inode layer, run by a process that is alone in the kernel. There is one
rule for each function.
-/

namespace Xv6.Sys

open Lib
open List (getD)

variable {P α β : Type} {up : Prop} {sb : Super} {s : Fs P}

def May (up : Prop) (m : Panic) : Prop := m ≠ .dirWrite ∧ (up → m ≠ .noType)

abbrev Seq (up : Prop) (x : Op P α) (Q : α → Fs P → Prop) (s : Fs P) : Prop := x.wp (May up) Q s

def lookup (x : Inode) (name : Name) : Option ℕ :=
  (x.entries.findIdx? fun e => decide (e.inum ≠ 0) && decide (e.name = name)).map fun n =>
    (x.entries.getD n .empty).inum

def walk (t : Table) (par : Bool) : ℕ → List Name → Option (ℕ × Name)
  | ip, [] => if par then none else some (ip, [])
  | ip, name :: rest =>
    if (t ip).type ≠ .dir then none
    else if par && rest.isEmpty then some (ip, name)
    else
      match lookup (t ip) name with
      | none => none
      | some next => walk t par next rest

def Fs.resolve (s : Fs P) (p : P) (path : Path) (par : Bool) : Option (ℕ × Name) :=
  walk s.inode par (if path.head? = some slash then ROOTINO else s.cwd p) (elems path)

theorem may_of_ne {m : Panic} (h1 : m ≠ .dirWrite) (h2 : m ≠ .noType) : May up m :=
  ⟨h1, fun _ => h2⟩

theorem seq_bind {x : Op P β} {k : β → Op P α} {Q : α → Fs P → Prop}
    (h : Seq up x (fun b s => Seq up (k b) Q s) s) : Seq up (x >>= k) Q s :=
  (Prog.wp_bind x k).2 h

/-! ### References and locks -/

section
variable {Q : Unit → Fs P → Prop} {ip : ℕ}

theorem seq_iget (hQ : Q () (s.iget ip)) : Seq up (iget sb ip) Q s := by
  show Prog.wp _ (if _ then _ else _) _ _
  split
  · exact may_of_ne (by decide) (by decide)
  · exact hQ

theorem seq_iunlock (hQ : Q () s) : Seq up (iunlock ip) Q s := by
  intro b
  show Prog.wp _ (if _ then _ else _) _ _
  split
  · exact may_of_ne (by decide) (by decide)
  · exact hQ

theorem seq_iput {site : Site} (hQ : Q () ((s.reap ip).drop ip)) : Seq up (iput site ip) Q s := hQ

theorem seq_iunlockput {site : Site} (hQ : Q () ((s.reap ip).drop ip)) :
    Seq up (iunlockput site ip) Q s :=
  seq_bind (seq_iunlock (seq_iput hQ))

theorem seq_ilock_live (hlive : (s.inode ip).type ≠ .free) (hQ : ip ≠ 0 → Q () (s.load ip)) :
    Seq up (ilock ip) Q s := by
  show Prog.wp _ (if _ then _ else _) _ _
  split
  · exact may_of_ne (by decide) (by decide)
  · rename_i href
    show Prog.wp _ (if _ then _ else _) _ _
    rw [if_neg fun h => hlive h.2]
    exact hQ fun h => href (.inl h)

variable [Fintype P] {extra held : ℕ → ℕ}

theorem seq_ilock (h : Orderly sb up extra held s) (hlive : up → (s.inode ip).type ≠ .free)
    (hQ : (s.inode ip).type ≠ .free → ip ≠ 0 → Q () (s.load ip)) : Seq up (ilock ip) Q s := by
  show Prog.wp _ (if _ then _ else _) _ _
  split
  · exact may_of_ne (by decide) (by decide)
  rename_i href
  rw [not_or, not_lt] at href
  show Prog.wp _ (if _ then _ else _) _ _
  split
  · rename_i hfree
    exact ⟨by decide, fun hup => absurd hfree.2 (hlive hup)⟩
  rename_i hok
  refine hQ (fun hfree => ?_) href.1
  rcases h.stale ip hfree with hv | hr
  · exact hok ⟨hv, hfree⟩
  · have := href.2
    change 1 ≤ s.ref ip at this
    omega

end

/-! ### Directories -/

section
variable {dp : ℕ} {name : Name}

theorem seq_dirlookup {Q : Option (ℕ × ℕ) → Fs P → Prop}
    (hnone : (s.inode dp).type = .dir → s.slot dp name = none → Q none s)
    (hsome : (s.inode dp).type = .dir → ∀ n, s.slot dp name = some n →
      Q (some ((s.entry dp n).inum, n)) (s.iget (s.entry dp n).inum)) :
    Seq up (dirlookup sb dp name) Q s := by
  show Prog.wp _ (if _ then _ else _) _ _
  split
  · exact may_of_ne (by decide) (by decide)
  rename_i hdir
  rw [not_not] at hdir
  show Prog.wp _ (match s.slot dp name with | none => _ | some n => _) _ _
  cases hslot : s.slot dp name with
  | none => exact hnone hdir hslot
  | some n => exact seq_bind (seq_iget (hsome hdir n hslot))

theorem seq_dirlink_new {Q : Int → Fs P → Prop} {inum : ℕ} (hslot : s.slot dp name = none)
    (hQ : (s.inode dp).type = .dir → s.noRoom sb dp (s.spare dp) ⟨inum, name⟩ = none →
      Q 0 (s.writeEntry dp (s.spare dp) ⟨inum, name⟩)) :
    Seq up (dirlink sb dp name inum) Q s := by
  refine seq_bind (seq_dirlookup (fun hdir _ => ?_) fun _ n hn => ?_)
  · refine (Prog.wp_act _ _).2 ?_
    cases hroom : s.noRoom sb dp (s.spare dp) ⟨inum, name⟩ with
    | none => exact hQ hdir hroom
    | some e =>
      show May up e
      unfold Fs.noRoom at hroom
      split at hroom
      · cases hroom
        exact may_of_ne (by decide) (by decide)
      · split at hroom
        · cases hroom
          exact may_of_ne (by decide) (by decide)
        · cases hroom
  · rw [hslot] at hn
    cases hn

variable [Fintype P] {extra held : ℕ → ℕ}

theorem seq_dirlink {Q : Int → Fs P → Prop} {inum : ℕ} (h : Orderly sb up extra held s)
    (hfound : ∀ s', Quiet s s' → Orderly sb up extra held s' → Q (-1) s')
    (hnew : (s.inode dp).type = .dir → s.slot dp name = none →
      s.noRoom sb dp (s.spare dp) ⟨inum, name⟩ = none →
      Q 0 (s.writeEntry dp (s.spare dp) ⟨inum, name⟩)) :
    Seq up (dirlink sb dp name inum) Q s := by
  cases hslot : s.slot dp name with
  | none => exact seq_dirlink_new hslot fun hdir => hnew hdir hslot
  | some m =>
    refine seq_bind (seq_dirlookup (fun _ hn => ?_) fun _ n _ => seq_bind (seq_iput ?_))
    · rw [hslot] at hn
      cases hn
    · rw [Fs.reap_of_not_dead (h.not_dead_iget _)]
      refine hfound _ ?_ ((h.iget _).drop (h.not_dead_iget _))
      exact (quiet_iget s _).trans ⟨rfl, rfl, rfl, rfl⟩

end

/-! ### Finding entries -/

theorem lookup_eq_some {x : Inode} {name : Name} {j : ℕ} (h : lookup x name = some j) :
    ∃ e ∈ x.entries, e.inum ≠ 0 ∧ e.name = name ∧ e.inum = j := by
  obtain ⟨n, hn, rfl⟩ := Option.map_eq_some_iff.1 h
  obtain ⟨hlt, he, -⟩ := List.findIdx?_eq_some_iff_getElem.1 hn
  simp only [Bool.and_eq_true, decide_eq_true_eq] at he
  exact ⟨x.entries[n], List.getElem_mem hlt, he.1, he.2, by simp [getD, hlt]⟩

theorem Fs.lookup_slot {dp : ℕ} {name : Name} :
    lookup (s.inode dp) name = (s.slot dp name).map fun n => (s.entry dp n).inum := rfl

namespace Counted

variable {extra : ℕ → ℕ} {t : Table} {d n : ℕ} {name : Name}

theorem entries_eq (h : Counted sb extra t) (hd : (t d).type = .dir) : ∃ par rest, par ≠ 0 ∧
    (t d).entries = ⟨d, dot⟩ :: ⟨par, dotdot⟩ :: rest ∧ (t d).entries.drop 2 = rest ∧
    (t d).parent = par := by
  obtain ⟨par, hpar, htake⟩ := h.dots d hd
  have he : (t d).entries = ⟨d, dot⟩ :: ⟨par, dotdot⟩ :: (t d).entries.drop 2 := by
    conv_lhs => rw [← List.take_append_drop 2 (t d).entries, htake]
    rfl
  refine ⟨par, _, hpar, he, rfl, ?_⟩
  rw [Inode.parent, he]
  rfl

theorem two_le_slot (h : Counted sb extra t) (hd : (t d).type = .dir)
    (hslot : ((t d).entries.findIdx? fun e => decide (e.inum ≠ 0) && decide (e.name = name)) =
      some n) (h1 : name ≠ dot) (h2 : name ≠ dotdot) : 2 ≤ n := by
  obtain ⟨par, rest, -, heq, -, -⟩ := h.entries_eq hd
  obtain ⟨hlt, he, -⟩ := List.findIdx?_eq_some_iff_getElem.1 hslot
  simp only [Bool.and_eq_true, decide_eq_true_eq] at he
  by_contra hn
  have hn : n = 0 ∨ n = 1 := by omega
  rcases hn with rfl | rfl
  · simp only [heq, List.getElem_cons_zero] at he
    exact h1 he.2.symm
  · simp only [heq, List.getElem_cons_succ, List.getElem_cons_zero] at he
    exact h2 he.2.symm

theorem slot_spec (h : Counted sb extra s.inode) (hd : (s.inode d).type = .dir)
    (hslot : s.slot d name = some n) (h1 : name ≠ dot) (h2 : name ≠ dotdot) :
    2 ≤ n ∧ n < (s.inode d).entries.length ∧ (s.entry d n).inum ≠ 0 ∧
      s.entry d n ∈ (s.inode d).entries.drop 2 ∧
      lookup (s.inode d) name = some (s.entry d n).inum := by
  have hn := h.two_le_slot hd hslot h1 h2
  obtain ⟨hlen, he, -⟩ := List.findIdx?_eq_some_iff_getElem.1 hslot
  simp only [Bool.and_eq_true, decide_eq_true_eq] at he
  have hget : s.entry d n = (s.inode d).entries[n] := by simp [Fs.entry, getD, hlen]
  refine ⟨hn, hlen, hget ▸ he.1, ?_,
    Fs.lookup_slot.trans (Option.map_eq_some_iff.2 ⟨n, hslot, rfl⟩)⟩
  rw [hget, List.mem_drop_iff_getElem]
  exact ⟨n - 2, by omega, by congr 1; omega⟩

theorem plain_of_slot (h : Counted sb extra t) (hd : (t d).type = .dir)
    (hslot : ((t d).entries.findIdx? fun e => decide (e.inum ≠ 0) && decide (e.name = name)) =
      none) : name ≠ dot ∧ name ≠ dotdot := by
  obtain ⟨par, rest, hpar, heq, -, -⟩ := h.entries_eq hd
  have hpos := (h.inum d (by simp [hd])).1
  rw [List.findIdx?_eq_none_iff, heq] at hslot
  constructor
  · rintro rfl
    have := hslot ⟨d, dot⟩ (by simp)
    simp at this
    omega
  · rintro rfl
    have := hslot ⟨par, dotdot⟩ (by simp)
    simp at this
    omega

theorem spare_spec (h : Counted sb extra t) (hd : (t d).type = .dir)
    (hn : (t d).entries.findIdx (fun e => decide (e.inum = 0)) = n) :
    2 ≤ n ∧ n ≤ (t d).entries.length ∧ ((t d).entries.getD n .empty).inum = 0 := by
  obtain ⟨par, rest, hpar, heq, -, -⟩ := h.entries_eq hd
  have hpos := (h.inum d (by simp [hd])).1
  refine ⟨?_, hn ▸ List.findIdx_le_length, ?_⟩
  · rw [heq, List.findIdx_cons, List.findIdx_cons] at hn
    simp only [Nat.pos_iff_ne_zero.1 hpos, hpar, decide_false, cond_false] at hn
    omega
  by_cases hlt : n < (t d).entries.length
  · subst hn
    have := List.findIdx_getElem (w := hlt)
    simpa [getD, hlt] using this
  · simp [getD, hlt, Dirent.empty]

end Counted

theorem Tree.entry_live {extra : ℕ → ℕ} {t : Table} {d : ℕ} (h : Tree sb up extra t) (hup : up)
    (hd : (t d).type = .dir) {e : Dirent}
    (he : e ∈ (t d).entries) (hz : e.inum ≠ 0) : (t e.inum).type ≠ .free := by
  obtain ⟨par, rest, -, heq, hrest, hpar⟩ := h.counted.entries_eq hd
  rw [heq] at he
  rcases List.mem_cons.1 he with rfl | he
  · simp [hd]
  rcases List.mem_cons.1 he with rfl | he
  · have hp := h.parents hup d hd
    rw [hpar] at hp
    rcases hp with hp | hp | hp
    · simp [hp, hd]
    · simp [hp, h.root]
    · simp [hp.1]
  · exact h.kids d hd e (hrest ▸ he) hz


end Xv6.Sys
