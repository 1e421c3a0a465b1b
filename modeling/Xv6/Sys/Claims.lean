import Mathlib.Algebra.Order.BigOperators.Group.Finset
import Mathlib.Data.Fintype.BigOperators
import Xv6.Lib.Locking
import Xv6.Lib.Transition
import Xv6.Sys.Calls

/-!
What processes may rely on while they are inside calls.

A process has claims: references to inodes and to open files that it has
taken and not given back. The reference counts cover the claims of all
processes, so an inode that somebody has a claim on is not freed, and
keeps its type. A directory that a process has locked keeps its entries.
An inode that a process has just allocated belongs to it alone until it
enters a name for it.

Inodes are ordered by age: by when they were allocated, and by `depth` in
the tree for those that were there from the start. Every entry of a
directory, `"."` and `".."` apart, leads to a younger directory or to
something that is no directory. This holds without any law about link
counts. It does need that nothing is freed that a path still leads to
(`allow`).
-/

namespace Xv6.Sys

open Lib Function
open Finset (mem_univ single_le_sum univ)

variable {P : Type}

def epoch : List Event → ℕ → ℕ
  | [], _ => 0
  | .alloc j :: h, i => if i = j then h.length + 1 else epoch h i
  | .free _ _ :: h, i => epoch h i

theorem epoch_le (h : List Event) (i : ℕ) : epoch h i ≤ h.length := by
  induction h with
  | nil => simp [epoch]
  | cons e h ih =>
    cases e with
    | alloc j =>
      simp only [epoch, List.length_cons]
      split <;> omega
    | free j ip =>
      simp only [epoch, List.length_cons]
      omega

namespace Fs

def openCount (s : Fs P) (i : ℕ) : ℕ :=
  ∑ f, if (s.file f).type = .inode ∧ (s.file f).ip = i then 1 else 0

def Named (s : Fs P) (i : ℕ) : Prop :=
  ∃ d, (s.inode d).type = .dir ∧ ∃ e ∈ (s.inode d).entries, e.inum ≠ 0 ∧ e.inum = i

structure SameTree (s s' : Fs P) : Prop where
  type : ∀ i, (s'.inode i).type = (s.inode i).type
  entries : ∀ i, (s'.inode i).entries = (s.inode i).entries
  hist : s'.hist = s.hist

section
variable (depth : ℕ → ℕ)

def Older (s : Fs P) (i j : ℕ) : Prop :=
  epoch s.hist i < epoch s.hist j ∨ epoch s.hist i = epoch s.hist j ∧ depth i < depth j

def Below (s : Fs P) (d i : ℕ) : Prop := (s.inode i).type = .dir → s.Older depth d i

structure Good (s : Fs P) : Prop where
  order : ∀ d, (s.inode d).type = .dir → ∀ e ∈ (s.inode d).entries, e.inum ≠ 0 → e.name ≠ dot →
    e.name ≠ dotdot → s.Below depth d e.inum
  closed : ∀ d, (s.inode d).type = .dir → ∀ e ∈ (s.inode d).entries, e.inum ≠ 0 →
    (s.inode e.inum).type ≠ .free
  root : (s.inode ROOTINO).type ≠ .free
  opened : ∀ f, (s.file f).type = .inode → (s.inode (s.file f).ip).type ≠ .free ∧
    ((s.file f).writable = true → (s.inode (s.file f).ip).type ≠ .dir)
  unused : ∀ f, (s.file f).ref = 0 → (s.file f).type = .none

end

def Allow (s s' : Fs P) : Prop :=
  ∀ i, (s.inode i).type ≠ .free → (s'.inode i).type = .free → i ≠ ROOTINO ∧
    ∀ d, d ≠ i → (s.inode d).type = .dir → ∀ e ∈ (s.inode d).entries, e.inum ≠ i

structure Blank (s : Fs P) (i : ℕ) : Prop where
  type : (s.inode i).type ≠ .free
  entries : (s.inode i).entries = []
  named : ¬ s.Named i
  opened : s.openCount i = 0
  root : i ≠ ROOTINO

end Fs

structure File.Same (f f' : File) : Prop where
  type : f'.type = f.type
  ip : f'.ip = f.ip
  readable : f'.readable = f.readable
  writable : f'.writable = f.writable

theorem File.Same.refl (f : File) : f.Same f := ⟨rfl, rfl, rfl, rfl⟩

theorem File.Same.trans {f g h : File} (h1 : f.Same g) (h2 : g.Same h) : f.Same h :=
  ⟨h2.type.trans h1.type, h2.ip.trans h1.ip, h2.readable.trans h1.readable,
    h2.writable.trans h1.writable⟩

@[ext]
structure Claims where
  held : ℕ → ℕ
  going : ℕ → ℕ
  files : Fin NFILE → ℕ
  fresh : Option ℕ

structure Rely (p : P) (c : Claims) (H : List ℕ) (s s' : Fs P) : Prop where
  kept : ∀ i, 0 < c.held i ∨ c.fresh = some i →
    (s'.inode i).type = (s.inode i).type ∧ epoch s'.hist i = epoch s.hist i
  mono : ∀ i, epoch s.hist i ≤ epoch s'.hist i
  new : ∀ i, (s'.inode i).type = .dir →
    ((s.inode i).type = .dir ∧ epoch s'.hist i = epoch s.hist i) ∨
      ∀ j, epoch s.hist j < epoch s'.hist i
  entries : ∀ i, 0 < c.held i ∧ i ∈ H ∨ c.fresh = some i →
    (s'.inode i).entries = (s.inode i).entries
  ofile : s'.ofile p = s.ofile p
  cwd : s'.cwd p = s.cwd p
  sole : ∀ f, 0 < c.files f → (s.file f).ref = 1 → (s.file f).Same (s'.file f) ∧ (s'.file f).ref = 1
  shared : ∀ f, 0 < c.files f → (s.file f).type = .inode → (s.file f).Same (s'.file f)

structure Guar (depth : ℕ → ℕ) (p : P) (c : Claims) (H : List ℕ) (s : Fs P) (c' : Claims)
    (s' : Fs P) : Prop where
  good : s'.Good depth
  mono : ∀ i, epoch s.hist i ≤ epoch s'.hist i
  new : ∀ i, (s'.inode i).type = .dir →
    ((s.inode i).type = .dir ∧ epoch s'.hist i = epoch s.hist i) ∨
      ∀ j, epoch s.hist j < epoch s'.hist i
  kept : ∀ i, (s.inode i).type ≠ .free →
    ((s'.inode i).type = (s.inode i).type ∧ epoch s'.hist i = epoch s.hist i) ∨
      0 < c.held i ∧ s.ref i = 1
  entries : ∀ i, (s.inode i).type ≠ .free → (s'.inode i).entries = (s.inode i).entries ∨
    0 < c.held i ∧ i ∈ H ∨ c.fresh = some i
  others : ∀ q, q ≠ p → s'.ofile q = s.ofile q ∧ s'.cwd q = s.cwd q
  count : ∀ i, c'.held i + c'.going i + s'.openCount i + s.ref i ≤
    c.held i + c.going i + s.openCount i + s'.ref i
  fileCount : ∀ f, c'.files f + (s.file f).ref ≤ c.files f + (s'.file f).ref
  file : ∀ f, s'.file f = s.file f ∨ (s.file f).ref = 0 ∨ 0 < c.files f
  shared : ∀ f, 1 < (s.file f).ref → (s.file f).type = .inode → (s.file f).Same (s'.file f)
  live : ∀ i, 0 < c'.held i → (s'.inode i).type ≠ .free
  fresh : ∀ i, c'.fresh = some i → (c.fresh = some i ∨ (s.inode i).type = .free) ∧ s'.Blank i
  grab : ∀ i, 0 < c'.held i →
    0 < c.held i ∨ c.fresh = some i ∨ i = ROOTINO ∨ s.Named i ∨ 0 < s.openCount i
  names : ∀ i, s'.Named i → s.Named i ∨ 0 < c.held i
  opens : ∀ i, 0 < s'.openCount i → 0 < s.openCount i ∨ 0 < c.held i

structure Knows (depth : ℕ → ℕ) (c : Claims) (s : Fs P) : Prop where
  good : s.Good depth
  count : ∀ i, c.held i + c.going i + s.openCount i ≤ s.ref i
  fileCount : ∀ f, c.files f ≤ (s.file f).ref
  live : ∀ i, 0 < c.held i → (s.inode i).type ≠ .free
  fresh : ∀ i, c.fresh = some i → s.Blank i

structure Law [Fintype P] (depth : ℕ → ℕ) (c : P → Claims) (s : Fs P) : Prop where
  good : s.Good depth
  count : ∀ i, ∑ p, ((c p).held i + (c p).going i) + s.openCount i ≤ s.ref i
  fileCount : ∀ f, ∑ p, (c p).files f ≤ (s.file f).ref
  live : ∀ p i, 0 < (c p).held i → (s.inode i).type ≠ .free
  fresh : ∀ p i, (c p).fresh = some i → s.Blank i ∧
    ∀ q, q ≠ p → (c q).held i = 0 ∧ (c q).fresh ≠ some i

def LockOrder (depth : ℕ → ℕ) (H : List ℕ) (last : Option ℕ) (site : Site) (i : ℕ)
    (s : Fs P) : Prop :=
  match site with
  | .putParent => last = some i
  | _ => ∀ j ∈ H, (s.inode j).type = .dir ∧ s.Below depth j i

theorem Fs.Older.irrefl {depth : ℕ → ℕ} {s : Fs P} {i : ℕ} : ¬ s.Older depth i i := by
  rintro (h | ⟨-, h⟩) <;> exact lt_irrefl _ h

theorem Fs.Older.trans {depth : ℕ → ℕ} {s : Fs P} {i j k : ℕ} (h1 : s.Older depth i j)
    (h2 : s.Older depth j k) : s.Older depth i k := by
  rcases h1 with h1 | ⟨h1, h1'⟩ <;> rcases h2 with h2 | ⟨h2, h2'⟩
  · exact .inl (h1.trans h2)
  · exact .inl (h2 ▸ h1)
  · exact .inl (h1 ▸ h2)
  · exact .inr ⟨h1.trans h2, h1'.trans h2'⟩

theorem Rely.refl (p : P) (c : Claims) (H : List ℕ) (s : Fs P) : Rely p c H s s where
  kept _ _ := ⟨rfl, rfl⟩
  mono _ := le_rfl
  new _ h := .inl ⟨h, rfl⟩
  entries _ _ := rfl
  ofile := rfl
  cwd := rfl
  sole _ _ hr := ⟨.refl _, hr⟩
  shared _ _ _ := .refl _

theorem Rely.trans {p : P} {c : Claims} {H : List ℕ} {s t u : Fs P} (h1 : Rely p c H s t)
    (h2 : Rely p c H t u) : Rely p c H s u where
  kept i hi := ⟨(h2.kept i hi).1.trans (h1.kept i hi).1, (h2.kept i hi).2.trans (h1.kept i hi).2⟩
  mono i := (h1.mono i).trans (h2.mono i)
  new i hi := by
    rcases h2.new i hi with ⟨ht, he⟩ | hnew
    · rcases h1.new i ht with ⟨hs, he'⟩ | hnew
      · exact .inl ⟨hs, he.trans he'⟩
      · exact .inr fun j => he ▸ hnew j
    · exact .inr fun j => (h1.mono j).trans_lt (hnew j)
  entries i hi := (h2.entries i hi).trans (h1.entries i hi)
  ofile := h2.ofile.trans h1.ofile
  cwd := h2.cwd.trans h1.cwd
  sole f hf hr := by
    obtain ⟨h, hr'⟩ := h1.sole f hf hr
    obtain ⟨h', hr''⟩ := h2.sole f hf hr'
    exact ⟨h.trans h', hr''⟩
  shared f hf ht := by
    have h := h1.shared f hf ht
    exact h.trans (h2.shared f hf (h.type.trans ht))

section
variable [Fintype P] {depth : ℕ → ℕ} {c : P → Claims} {c' : Claims} {s s' : Fs P} {p q : P}
  {H H' : List ℕ}

theorem Law.knows (h : Law depth c s) (p : P) : Knows depth (c p) s where
  good := h.good
  count i := by
    have h1 := single_le_sum (f := fun p => (c p).held i + (c p).going i)
      (fun _ _ => Nat.zero_le _) (mem_univ p)
    have h2 := h.count i
    omega
  fileCount f := (single_le_sum (f := fun p => (c p).files f) (fun _ _ => Nat.zero_le _)
    (mem_univ p)).trans (h.fileCount f)
  live := h.live p
  fresh i hi := (h.fresh p i hi).1

variable [DecidableEq P]

theorem add_le_sum (f : P → ℕ) (h : q ≠ p) : f p + f q ≤ ∑ r, f r := by
  rw [← Finset.add_sum_erase univ f (mem_univ p)]
  exact Nat.add_le_add_left (single_le_sum (fun _ _ => Nat.zero_le _)
    (Finset.mem_erase.2 ⟨h, mem_univ q⟩)) _

theorem Law.lone (h : Law depth c s) (hq : q ≠ p) {i : ℕ} (hp : 0 < (c p).held i)
    (hr : s.ref i = 1) : (c q).held i = 0 := by
  have h1 := add_le_sum (fun p => (c p).held i + (c p).going i) hq
  have h2 := h.count i
  omega

variable (h : Law depth c s) (hg : Guar depth p (c p) H s c' s')
include h hg

theorem Law.kept (hq : q ≠ p) {i : ℕ} (hi : 0 < (c q).held i ∨ (c q).fresh = some i) :
    (s'.inode i).type = (s.inode i).type ∧ epoch s'.hist i = epoch s.hist i := by
  rcases hi with hi | hi
  · rcases hg.kept i (h.live q i hi) with hk | ⟨hp, hr⟩
    · exact hk
    · have := h.lone hq hp hr
      omega
  obtain ⟨hb, ho⟩ := h.fresh q i hi
  rcases hg.kept i hb.type with hk | ⟨hp, hr⟩
  · exact hk
  · have := (ho p (.symm hq)).1
    omega

theorem Law.rely (hq : q ≠ p) (hH : List.Disjoint H H') : Rely q (c q) H' s s' where
  kept i hi := h.kept hg hq hi
  mono := hg.mono
  new := hg.new
  entries i hi := by
    rcases hi with ⟨hi, hiH⟩ | hi
    · rcases hg.entries i (h.live q i hi) with he | ⟨-, hp⟩ | hp
      · exact he
      · exact absurd hiH (hH hp)
      · have := ((h.fresh p i hp).2 q hq).1
        omega
    obtain ⟨hb, ho⟩ := h.fresh q i hi
    rcases hg.entries i hb.type with he | ⟨hp, -⟩ | hp
    · exact he
    · have := (ho p (.symm hq)).1
      omega
    · exact absurd hp (ho p (.symm hq)).2
  ofile := (hg.others q hq).1
  cwd := (hg.others q hq).2
  sole f hf hr := by
    rcases hg.file f with he | hz | hp
    · rw [he]
      exact ⟨.refl _, hr⟩
    · omega
    · have h1 := add_le_sum (fun p => (c p).files f) hq
      have h2 := h.fileCount f
      omega
  shared f hf ht := by
    by_cases hr : 1 < (s.file f).ref
    · exact hg.shared f hr ht
    rcases hg.file f with he | hz | hp
    · exact he ▸ .refl _
    · have := h.good.unused f hz
      simp [this] at ht
    · have h1 := add_le_sum (fun p => (c p).files f) hq
      have h2 := h.fileCount f
      omega

theorem Law.step : Law depth (update c p c') s' where
  good := hg.good
  count i := by
    have h1 := sum_update_add c (fun x => x.held i + x.going i) p c'
    have h2 := h.count i
    have h3 := hg.count i
    omega
  fileCount f := by
    have h1 := sum_update_add c (fun x => x.files f) p c'
    have h2 := h.fileCount f
    have h3 := hg.fileCount f
    omega
  live q i hi := by
    by_cases hq : q = p
    · subst hq
      exact hg.live i (by simpa using hi)
    · rw [update_of_ne hq] at hi
      rw [(h.kept hg hq (.inl hi)).1]
      exact h.live q i hi
  fresh q i hi := by
    by_cases hq : q = p
    · subst hq
      rw [update_self] at hi
      obtain ⟨hold, hb⟩ := hg.fresh i hi
      refine ⟨hb, fun r hr => ?_⟩
      rw [update_of_ne hr]
      rcases hold with hold | hfree
      · exact (h.fresh q i hold).2 r hr
      · -- Nobody has a claim on an inode that was free.
        refine ⟨?_, fun hr' => (h.fresh r i hr').1.type hfree⟩
        by_contra hne
        exact h.live r i (by omega) hfree
    · rw [update_of_ne hq] at hi
      obtain ⟨hb, ho⟩ := h.fresh q i hi
      have hp := ho p (.symm hq)
      refine ⟨⟨?_, ?_, fun hn => ?_, ?_, hb.root⟩, fun r hr => ?_⟩
      · rw [(h.kept hg hq (.inr hi)).1]
        exact hb.type
      · rcases hg.entries i hb.type with he | ⟨hp', -⟩ | hp'
        · exact he.trans hb.entries
        · omega
        · exact absurd hp' hp.2
      · rcases hg.names i hn with hn | hp'
        · exact hb.named hn
        · omega
      · have := hg.opens i
        have := hb.opened
        omega
      by_cases hrp : r = p
      · subst hrp
        rw [update_self]
        constructor
        · by_contra hne
          have := hb.opened
          rcases hg.grab i (by omega) with h' | h' | h' | h' | h'
          · omega
          · exact hp.2 h'
          · exact hb.root h'
          · exact hb.named h'
          · omega
        · intro hf
          rcases (hg.fresh i hf).1 with h' | h'
          · exact hp.2 h'
          · exact hb.type h'
      · rw [update_of_ne hrp]
        exact ho r hr

end

def discipline [Fintype P] [DecidableEq P] (depth : ℕ → ℕ) :
    Discipline P Site ℕ Panic (Fs P) Claims where
  may e := e ≠ .dirWrite
  law := Law depth
  inv _ := Knows depth
  rely := Rely
  guar := Guar depth
  allow := Fs.Allow
  order := LockOrder depth
  rely_refl := Rely.refl
  rely_trans := Rely.trans
  inv_of_law := Law.knows
  law_step := Law.step
  rely_step := Law.rely

end Xv6.Sys
