import Mathlib.Algebra.Order.BigOperators.Group.Finset
import Xv6.Lib.Transition
import Xv6.Sys.Calls

namespace Xv6.Sys

open Lib Function

abbrev Table := ℕ → Inode

def Dirent.leads (e : Dirent) (q : ℕ → Bool) : Bool := decide (e.inum ≠ 0) && q e.inum

def Inode.count (x : Inode) (q : ℕ → Bool) : ℕ :=
  if x.type = .dir then (x.entries.drop 2).countP (·.leads q) else 0

def Inode.parent (x : Inode) : ℕ := (x.entries.getD 1 .empty).inum

def names (sb : Super) (t : Table) (i : ℕ) : ℕ :=
  ∑ d ∈ Finset.range sb.ninodes, (t d).count fun j => decide (j = i)

def subdirs (t : Table) (d : ℕ) : ℕ := (t d).count fun j => decide ((t j).type = .dir)

def plus (f : ℕ → ℕ) (i : ℕ) : ℕ → ℕ := fun j => f j + if j = i then 1 else 0

structure Counted (sb : Super) (extra : ℕ → ℕ) (t : Table) : Prop where
  root : (t ROOTINO).type = .dir
  inum : ∀ i, (t i).type ≠ .free → 0 < i ∧ i < sb.ninodes
  links : ∀ i, (t i).nlink.toInt =
    names sb t i + subdirs t i + (if i = ROOTINO then 1 else 0 : ℕ) + extra i
  dots : ∀ d, (t d).type = .dir → ∃ par, par ≠ 0 ∧
    (t d).entries.take 2 = [⟨d, dot⟩, ⟨par, dotdot⟩]
  plain : ∀ d, (t d).type = .dir → ∀ e ∈ (t d).entries.drop 2, e.inum ≠ 0 →
    e.name ≠ dot ∧ e.name ≠ dotdot
  kids : ∀ d, (t d).type = .dir → ∀ e ∈ (t d).entries.drop 2, e.inum ≠ 0 →
    (t e.inum).type ≠ .free
  once : ∀ i, (t i).type = .dir → names sb t i ≤ 1

variable {sb : Super} {extra : ℕ → ℕ} {t t' : Table}

theorem plus_comm (f : ℕ → ℕ) (i j : ℕ) : plus (plus f i) j = plus (plus f j) i := by
  funext k
  simp only [plus]
  omega

variable {e : Dirent}

theorem Dirent.leads_of_zero (h : e.inum = 0) (q : ℕ → Bool) : e.leads q = false := by
  simp [Dirent.leads, h]

variable {i : ℕ}

theorem Dirent.leads_of_ne (h : e.inum = i) (hi : i ≠ 0) (q : ℕ → Bool) : e.leads q = q i := by
  simp [Dirent.leads, h, hi]

theorem names_update (hi : i < sb.ninodes) (t : Table) (x : Inode) (j : ℕ) :
    names sb (update t i x) j + (t i).count (fun k => decide (k = j)) =
      names sb t j + x.count fun k => decide (k = j) :=
  sum_update_mem (Finset.mem_range.2 hi) t (fun x => x.count fun k => decide (k = j)) x

theorem used_update (hi : i < sb.ninodes) (t : Table) (x : Inode) :
    used sb (update t i x) + blocksOf (t i).size = used sb t + blocksOf x.size :=
  sum_update_mem (Finset.mem_range.2 hi) t (fun x => blocksOf x.size) x

variable {x : Inode}

theorem Inode.count_congr {y : Inode} (ht : y.type = x.type) (he : y.entries = x.entries)
    (q : ℕ → Bool) : y.count q = x.count q := by
  rw [Inode.count, Inode.count, ht, he]

theorem Inode.count_of_type (h : x.type ≠ .dir) (q : ℕ → Bool) : x.count q = 0 :=
  if_neg h

theorem Inode.count_of_empty (h : ∀ e ∈ x.entries.drop 2, e.inum = 0) (q : ℕ → Bool) :
    x.count q = 0 := by
  unfold Inode.count
  split
  · refine List.countP_eq_zero.2 fun e he => ?_
    simp [Dirent.leads_of_zero (h e he)]
  · rfl

theorem Inode.count_congr_pred {q r : ℕ → Bool}
    (h : x.type = .dir → ∀ e ∈ x.entries.drop 2, e.inum ≠ 0 → q e.inum = r e.inum) :
    x.count q = x.count r := by
  unfold Inode.count
  split
  · rename_i ht
    refine List.countP_congr fun e he => ?_
    by_cases hz : e.inum = 0
    · simp [Dirent.leads, hz]
    · simp [Dirent.leads, hz, h ht e he hz]
  · rfl

theorem Inode.count_pos {q : ℕ → Bool} (ht : x.type = .dir) (he : e ∈ x.entries.drop 2)
    (hq : e.leads q = true) : 0 < x.count q := by
  rw [Inode.count, if_pos ht]
  exact List.countP_pos_iff.2 ⟨e, he, hq⟩

theorem Inode.count_le_length (x : Inode) (q : ℕ → Bool) : x.count q ≤ x.entries.length := by
  unfold Inode.count
  split
  · exact List.countP_le_length.trans (by simp)
  · exact Nat.zero_le _

def Inode.store (x : Inode) (n : ℕ) (e : Dirent) : Inode :=
  { x with entries := Fs.store x.entries n e }

theorem Inode.count_store (ht : x.type = .dir) {n : ℕ} (hn : 2 ≤ n) (hlen : n ≤ x.entries.length)
    (e : Dirent) (q : ℕ → Bool) :
    (x.store n e).count q + (if (x.entries.getD n .empty).leads q then 1 else 0) =
      x.count q + if e.leads q then 1 else 0 := by
  simp only [Inode.count, Inode.store, ht, ↓reduceIte, Fs.store]
  split
  · rename_i hlt
    have hdrop : (x.entries.set n e).drop 2 = (x.entries.drop 2).set (n - 2) e := by
      rw [List.drop_set, if_neg (by omega)]
    have hget : (x.entries.drop 2).length > n - 2 := by
      rw [List.length_drop]
      omega
    have hold : (x.entries.drop 2)[n - 2] = x.entries.getD n .empty := by
      simp [List.getElem_drop, List.getD, show 2 + (n - 2) = n by omega, hlt]
    have hle : (if (x.entries.getD n .empty).leads q then 1 else 0) ≤
        (x.entries.drop 2).countP (·.leads q) := by
      split
      · rename_i h
        exact List.countP_pos_iff.2 ⟨_, List.getElem_mem hget, hold ▸ h⟩
      · exact Nat.zero_le _
    rw [hdrop, List.countP_set hget, hold]
    omega
  · rename_i hge
    have hend : x.entries.getD n .empty = .empty := by simp [List.getD, hge]
    rw [List.drop_append_of_le_length (by omega), List.countP_append, hend]
    simp [Dirent.leads, Dirent.empty]

theorem names_congr (ht : ∀ i, (t' i).type = (t i).type)
    (he : ∀ i, (t' i).entries = (t i).entries) (i : ℕ) : names sb t' i = names sb t i :=
  Finset.sum_congr rfl fun d _ => Inode.count_congr (ht d) (he d) _

theorem subdirs_congr (ht : ∀ i, (t' i).type = (t i).type)
    (he : ∀ i, (t' i).entries = (t i).entries) (d : ℕ) : subdirs t' d = subdirs t d := by
  simp only [subdirs, ht, Inode.count_congr (ht d) (he d)]

theorem used_congr (h : ∀ i, (t' i).size = (t i).size) : used sb t' = used sb t :=
  Finset.sum_congr rfl fun d _ => by rw [h]

theorem update_proj {β : Type} (g : Inode → β) (hx : g x = g (t i)) (j : ℕ) :
    g (update t i x j) = g (t j) := by
  by_cases hj : j = i
  · subst hj
    rw [update_self, hx]
  · rw [update_of_ne hj]

theorem blocksOf_entries (h : x.type = .dir) : x.entries.length ≤ 32 * blocksOf x.size := by
  simp only [blocksOf, Inode.size, h, ↓reduceIte, BSIZE, NDIRECT]
  omega

theorem names_update_empty (hi : i < sb.ninodes) (hold : ∀ q, (t i).count q = 0)
    (hnew : ∀ q, x.count q = 0) (j : ℕ) : names sb (update t i x) j = names sb t j := by
  have := names_update hi t x j
  rw [hold, hnew] at this
  exact this

namespace Counted

theorem two_le_length (h : Counted sb extra t) {d : ℕ} (hd : (t d).type = .dir) :
    2 ≤ (t d).entries.length := by
  obtain ⟨par, -, htake⟩ := h.dots d hd
  have := congrArg List.length htake
  simp only [List.length_take, List.length_cons, List.length_nil] at this
  omega

theorem names_pos (h : Counted sb extra t) {d : ℕ} {e : Dirent} (hd : (t d).type = .dir)
    (he : e ∈ (t d).entries.drop 2) (hz : e.inum ≠ 0) : 0 < names sb t e.inum := by
  have hlt := (h.inum d (by simp [hd])).2
  have hone : 0 < (t d).count fun j => decide (j = e.inum) :=
    Inode.count_pos hd he (by simp [Dirent.leads, hz])
  exact hone.trans_le (Finset.single_le_sum (f := fun d => (t d).count fun j => decide (j = e.inum))
    (fun _ _ => Nat.zero_le _) (Finset.mem_range.2 hlt))

variable {i : ℕ}

section
variable (h : Counted sb extra t)
include h

theorem of_nlink_eq_zero (hz : (t i).nlink = 0) :
    names sb t i = 0 ∧ subdirs t i = 0 ∧ i ≠ ROOTINO ∧ extra i = 0 := by
  have hl := h.links i
  rw [hz, Int16.toInt_zero] at hl
  by_cases hi : i = ROOTINO
  · rw [if_pos hi] at hl
    omega
  · rw [if_neg hi] at hl
    exact ⟨by omega, by omega, hi, by omega⟩

theorem nlink_ne_zero (hi : i = ROOTINO ∨ 0 < names sb t i) : (t i).nlink ≠ 0 := by
  intro hz
  obtain ⟨hn, -, hr, -⟩ := h.of_nlink_eq_zero hz
  rcases hi with hi | hi
  · exact hr hi
  · omega

theorem of_shape {extra' : ℕ → ℕ}
    (ht : ∀ i, (t' i).type = (t i).type) (he : ∀ i, (t' i).entries = (t i).entries)
    (hlinks : ∀ i, (t' i).nlink.toInt + extra i = (t i).nlink.toInt + extra' i) :
    Counted sb extra' t' where
  root := (ht _).trans h.root
  inum i hi := h.inum i (ht i ▸ hi)
  links i := by
    have h1 := hlinks i
    have h2 := h.links i
    rw [names_congr ht he, subdirs_congr ht he]
    omega
  dots d hd := by
    rw [he]
    exact h.dots d (ht d ▸ hd)
  plain d hd := by
    rw [he]
    exact h.plain d (ht d ▸ hd)
  kids d hd := by
    simp only [he, ht]
    exact h.kids d (ht d ▸ hd)
  once i hi := by
    rw [names_congr ht he]
    exact h.once i (ht i ▸ hi)

theorem relink {extra' : ℕ → ℕ} {n : Int16}
    (hn : n.toInt + extra i = (t i).nlink.toInt + extra' i) (hx : ∀ j, j ≠ i → extra' j = extra j) :
    Counted sb extra' (update t i { t i with nlink := n }) := by
  refine h.of_shape (update_proj (·.type) (by rfl)) (update_proj (·.entries) (by rfl)) fun j => ?_
  by_cases hj : j = i
  · subst hj
    rw [update_self]
    exact hn
  · rw [update_of_ne hj, hx j hj]

theorem addLink (i : ℕ) (hmax : (t i).nlink.toInt < 2 ^ 15 - 1) :
    Counted sb (plus extra i) (update t i { t i with nlink := (t i).nlink + 1 }) := by
  have hl := h.links i
  refine h.relink ?_ fun j hj => by simp [plus, hj]
  rw [Int16.toInt_add, Int16.toInt_one, Int.bmod_eq_of_le (by omega) (by omega), plus, if_pos rfl]
  push_cast
  ring

end

theorem subLink (h : Counted sb (plus extra i) t) :
    Counted sb extra (update t i { t i with nlink := (t i).nlink + -1 }) := by
  have hl := h.links i
  have hmax := (t i).nlink.toInt_lt
  have hone : plus extra i i = extra i + 1 := by simp [plus]
  refine h.relink ?_ fun j hj => by simp [plus, hj]
  rw [Int16.toInt_add, show (-1 : Int16).toInt = -1 from rfl,
    Int.bmod_eq_of_le (by omega) (by omega), hone]
  push_cast
  ring

end Counted

section
variable {dp n : ℕ} {e : Dirent}

theorem Fs.drop_store {es : List Dirent} (hn : 2 ≤ n) (hlen : 2 ≤ es.length) :
    (Fs.store es n e).drop 2 = Fs.store (es.drop 2) (n - 2) e := by
  unfold Fs.store
  rw [List.length_drop]
  split
  · rw [if_pos (by omega), List.drop_set, if_neg (by omega)]
  · rw [if_neg (by omega), List.drop_append_of_le_length hlen]

theorem Fs.take_store {es : List Dirent} (hn : 2 ≤ n) (hlen : 2 ≤ es.length) :
    (Fs.store es n e).take 2 = es.take 2 := by
  unfold Fs.store
  split
  · rw [List.take_set_of_le hn]
  · rw [List.take_append_of_le_length hlen]

theorem Inode.parent_eq_of_take {x y : Inode} (h : y.entries.take 2 = x.entries.take 2) :
    y.parent = x.parent := by
  have hget : ∀ z : Inode, z.entries.getD 1 .empty = (z.entries.take 2).getD 1 .empty := by
    intro z
    simp [List.getD]
  rw [Inode.parent, Inode.parent, hget, hget, h]

def storeEntry (t : Table) (dp n : ℕ) (e : Dirent) : Table :=
  update t dp ((t dp).store n e)

theorem storeEntry_type (i : ℕ) : (storeEntry t dp n e i).type = (t i).type := by
  unfold storeEntry
  exact update_proj (·.type) (by rfl) i

theorem storeEntry_nlink (i : ℕ) : (storeEntry t dp n e i).nlink = (t i).nlink := by
  unfold storeEntry
  exact update_proj (·.nlink) (by rfl) i

theorem storeEntry_of_ne {d : ℕ} (h : d ≠ dp) : storeEntry t dp n e d = t d :=
  update_of_ne h ..

theorem storeEntry_self : (storeEntry t dp n e dp).entries = Fs.store (t dp).entries n e := by
  rw [storeEntry, update_self]
  rfl

namespace Counted

section
variable (h : Counted sb extra t) (hdp : (t dp).type = .dir) (hn : 2 ≤ n)
include h hdp hn

theorem take_storeEntry (d : ℕ) : (storeEntry t dp n e d).entries.take 2 = (t d).entries.take 2 :=
  update_proj (fun x => x.entries.take 2) (Fs.take_store hn (h.two_le_length hdp)) d

theorem mem_storeEntry {d : ℕ} {x : Dirent} (hx : x ∈ (storeEntry t dp n e d).entries.drop 2) :
    x ∈ (t d).entries.drop 2 ∨ d = dp ∧ x = e := by
  by_cases hd : d = dp
  · subst hd
    rw [storeEntry_self, Fs.drop_store hn (h.two_le_length hdp)] at hx
    unfold Fs.store at hx
    split at hx
    · rcases List.mem_or_eq_of_mem_set hx with hx | hx
      · exact .inl hx
      · exact .inr ⟨rfl, hx⟩
    · rcases List.mem_append.1 hx with hx | hx
      · exact .inl hx
      · exact .inr ⟨rfl, List.mem_singleton.1 hx⟩
  · rw [storeEntry_of_ne hd] at hx
    exact .inl hx

theorem names_storeEntry
    (hlen : n ≤ (t dp).entries.length) (i : ℕ) :
    names sb (storeEntry t dp n e) i +
        (if ((t dp).entries.getD n .empty).leads (fun j => decide (j = i)) then 1 else 0) =
      names sb t i + if e.leads (fun j => decide (j = i)) then 1 else 0 := by
  have h1 := names_update (h.inum dp (by simp [hdp])).2 t ((t dp).store n e) i
  have h2 := Inode.count_store hdp hn hlen e fun j => decide (j = i)
  rw [storeEntry]
  omega

end

theorem subdirs_storeEntry (hdp : (t dp).type = .dir) (hn : 2 ≤ n)
    (hlen : n ≤ (t dp).entries.length) (d : ℕ) :
    subdirs (storeEntry t dp n e) d +
        (if d = dp ∧ ((t dp).entries.getD n .empty).leads fun j => decide ((t j).type = .dir) then 1
          else 0) =
      subdirs t d + if d = dp ∧ e.leads fun j => decide ((t j).type = .dir) then 1 else 0 := by
  simp only [subdirs, storeEntry_type]
  by_cases hd : d = dp
  · subst hd
    have := Inode.count_store hdp hn hlen e fun j => decide ((t j).type = .dir)
    simpa [storeEntry] using this
  · simp [storeEntry_of_ne hd, hd]

theorem storeEntry {extra' : ℕ → ℕ} (h : Counted sb extra t) (hdp : (t dp).type = .dir)
    (hn : 2 ≤ n) (he : e.inum ≠ 0 → (t e.inum).type ≠ .free ∧ e.name ≠ dot ∧ e.name ≠ dotdot)
    (hlinks : ∀ i, names sb (Sys.storeEntry t dp n e) i + subdirs (Sys.storeEntry t dp n e) i +
      extra' i = names sb t i + subdirs t i + extra i)
    (honce : ∀ i, (t i).type = .dir → names sb (Sys.storeEntry t dp n e) i ≤ 1) :
    Counted sb extra' (Sys.storeEntry t dp n e) where
  root := (storeEntry_type _).trans h.root
  inum i hi := h.inum i (by rwa [storeEntry_type] at hi)
  links i := by
    have h1 := hlinks i
    have h2 := h.links i
    rw [storeEntry_nlink]
    omega
  dots d hd := by
    rw [storeEntry_type] at hd
    rw [h.take_storeEntry hdp hn]
    exact h.dots d hd
  plain d hd x hx hz := by
    rw [storeEntry_type] at hd
    rcases h.mem_storeEntry hdp hn hx with hx | ⟨-, rfl⟩
    · exact h.plain d hd x hx hz
    · exact (he hz).2
  kids d hd x hx hz := by
    rw [storeEntry_type] at hd ⊢
    rcases h.mem_storeEntry hdp hn hx with hx | ⟨-, rfl⟩
    · exact h.kids d hd x hx hz
    · exact (he hz).1
  once i hi := honce i (by rwa [storeEntry_type] at hi)

end Counted

def ahead (t : Table) (extra : ℕ → ℕ) (dp ip : ℕ) : ℕ → ℕ :=
  if (t ip).type = .dir then plus (plus extra ip) dp else plus extra ip

theorem ahead_apply (dp ip i : ℕ) : ahead t extra dp ip i =
    extra i + (if i = ip then 1 else 0) + if i = dp ∧ (t ip).type = .dir then 1 else 0 := by
  unfold ahead
  split
  · rename_i h
    simp [plus, h]
  · rename_i h
    simp [plus, h]

namespace Counted

variable {ip : ℕ} {name : Name}

theorem names_enter (h : Counted sb extra t) (hdp : (t dp).type = .dir) (hn : 2 ≤ n)
    (hlen : n ≤ (t dp).entries.length) (hold : ((t dp).entries.getD n .empty).inum = 0)
    (hip : ip ≠ 0) (i : ℕ) : names sb (Sys.storeEntry t dp n ⟨ip, name⟩) i =
      names sb t i + if i = ip then 1 else 0 := by
  have := h.names_storeEntry (e := ⟨ip, name⟩) hdp hn hlen i
  rw [Dirent.leads_of_zero hold, Dirent.leads_of_ne rfl hip] at this
  simpa [eq_comm (a := ip)] using this

theorem subdirs_enter (hdp : (t dp).type = .dir) (hn : 2 ≤ n)
    (hlen : n ≤ (t dp).entries.length) (hold : ((t dp).entries.getD n .empty).inum = 0)
    (hip : ip ≠ 0) (d : ℕ) : subdirs (Sys.storeEntry t dp n ⟨ip, name⟩) d =
      subdirs t d + if d = dp ∧ (t ip).type = .dir then 1 else 0 := by
  have := subdirs_storeEntry (e := ⟨ip, name⟩) hdp hn hlen d
  rw [Dirent.leads_of_zero hold, Dirent.leads_of_ne rfl hip] at this
  simpa using this

theorem enter (h : Counted sb (ahead t extra dp ip) t) (hdp : (t dp).type = .dir) (hn : 2 ≤ n)
    (hlen : n ≤ (t dp).entries.length) (hold : ((t dp).entries.getD n .empty).inum = 0)
    (hip : (t ip).type ≠ .free) (hdir : (t ip).type = .dir → names sb t ip = 0)
    (hname : name ≠ dot ∧ name ≠ dotdot) : Counted sb extra (Sys.storeEntry t dp n ⟨ip, name⟩) := by
  have hip0 : ip ≠ 0 := Nat.pos_iff_ne_zero.1 (h.inum ip hip).1
  refine h.storeEntry hdp hn (fun _ => ⟨hip, hname⟩) (fun i => ?_) fun i hi => ?_
  · rw [h.names_enter hdp hn hlen hold hip0, subdirs_enter hdp hn hlen hold hip0, ahead_apply]
    omega
  rw [h.names_enter hdp hn hlen hold hip0]
  split
  · rename_i hii
    subst hii
    rw [hdir hi]
  · exact h.once i hi

theorem names_clear (h : Counted sb extra t) (hdp : (t dp).type = .dir) (hn : 2 ≤ n)
    (hlen : n < (t dp).entries.length) (hold : ((t dp).entries.getD n .empty).inum = ip)
    (hip : ip ≠ 0) (i : ℕ) : names sb (Sys.storeEntry t dp n .empty) i +
      (if i = ip then 1 else 0) = names sb t i := by
  have := h.names_storeEntry (e := .empty) hdp hn hlen.le i
  rw [Dirent.leads_of_ne hold hip, Dirent.leads_of_zero rfl] at this
  simpa [eq_comm (a := ip)] using this

theorem subdirs_clear (hdp : (t dp).type = .dir) (hn : 2 ≤ n)
    (hlen : n < (t dp).entries.length) (hold : ((t dp).entries.getD n .empty).inum = ip)
    (hip : ip ≠ 0) (d : ℕ) : subdirs (Sys.storeEntry t dp n .empty) d +
      (if d = dp ∧ (t ip).type = .dir then 1 else 0) = subdirs t d := by
  have := subdirs_storeEntry (e := .empty) hdp hn hlen.le d
  rw [Dirent.leads_of_ne hold hip, Dirent.leads_of_zero rfl] at this
  simpa using this

theorem clear (h : Counted sb extra t) (hdp : (t dp).type = .dir) (hn : 2 ≤ n)
    (hlen : n < (t dp).entries.length) (hold : ((t dp).entries.getD n .empty).inum = ip)
    (hip : ip ≠ 0) : Counted sb (ahead t extra dp ip) (Sys.storeEntry t dp n .empty) := by
  refine h.storeEntry hdp hn (fun h => absurd rfl h) (fun i => ?_) fun i hi => ?_
  · have h1 := h.names_clear hdp hn hlen hold hip i
    have h2 := subdirs_clear hdp hn hlen hold hip i
    rw [ahead_apply]
    omega
  · have h1 := h.names_clear hdp hn hlen hold hip i
    have h2 := h.once i hi
    omega

end Counted

end

theorem names_of_free {i : ℕ} (hkids : ∀ d, (t d).type = .dir → ∀ e ∈ (t d).entries.drop 2,
    e.inum ≠ 0 → (t e.inum).type ≠ .free) (hfree : (t i).type = .free) : names sb t i = 0 := by
  refine Finset.sum_eq_zero fun d _ => ?_
  by_cases hd : (t d).type = .dir
  · rw [Inode.count, if_pos hd, List.countP_eq_zero]
    intro e he hl
    simp only [Dirent.leads, Bool.and_eq_true, decide_eq_true_eq] at hl
    exact hkids d hd e he hl.1 (hl.2 ▸ hfree)
  · exact Inode.count_of_type hd _

namespace Counted

variable {i : ℕ} (h : Counted sb extra t)
include h

theorem subdirs_update {x : Inode} (hnone : names sb t i = 0) {d : ℕ}
    (hd : d ≠ i) : subdirs (update t i x) d = subdirs t d := by
  rw [subdirs, subdirs, update_of_ne hd]
  refine Inode.count_congr_pred fun hdir e he hz => ?_
  have hne : e.inum ≠ i := by
    rintro rfl
    have := h.names_pos hdir he hz
    omega
  rw [update_of_ne hne]

theorem create {x : Inode} (hfree : (t i).type = .free)
    (hi : 0 < i ∧ i < sb.ninodes) (hextra : extra i = 0) (hlink : x.nlink = 1)
    (hdir : x.type = .dir → ∃ par, par ≠ 0 ∧ x.entries = [⟨i, dot⟩, ⟨par, dotdot⟩]) :
    Counted sb (plus extra i) (update t i x) ∧
      ∀ j, names sb (update t i x) j = names sb t j := by
  have hrest : x.type = .dir → x.entries.drop 2 = [] := by
    intro hd
    obtain ⟨par, -, he⟩ := hdir hd
    rw [he]
    rfl
  have hnew : ∀ q, x.count q = 0 := by
    intro q
    by_cases hd : x.type = .dir
    · exact Inode.count_of_empty (by simp [hrest hd]) q
    · exact Inode.count_of_type hd q
  have hold : ∀ q, (t i).count q = 0 := fun q => Inode.count_of_type (by simp [hfree]) q
  have hnames := names_update_empty hi.2 hold hnew
  have hnone : names sb t i = 0 := names_of_free h.kids hfree
  have hroot : i ≠ ROOTINO := by
    rintro rfl
    rw [h.root] at hfree
    cases hfree
  refine ⟨⟨?_, fun j hj => ?_, fun j => ?_, fun d hd => ?_, fun d hd e he => ?_,
    fun d hd e he hz => ?_, fun d hd => ?_⟩, hnames⟩
  · rw [update_of_ne (.symm hroot)]
    exact h.root
  · by_cases hji : j = i
    · exact hji ▸ hi
    · rw [update_of_ne hji] at hj
      exact h.inum j hj
  · rw [hnames]
    by_cases hji : j = i
    · subst hji
      have hsub : subdirs (update t j x) j = 0 := by
        rw [subdirs, update_self]
        exact hnew _
      rw [update_self, hsub, hnone, if_neg hroot, hlink, plus, if_pos rfl, hextra]
      rfl
    · rw [update_of_ne hji, h.subdirs_update hnone hji, plus, if_neg hji]
      exact h.links j
  · by_cases hdi : d = i
    · subst hdi
      rw [update_self] at hd ⊢
      obtain ⟨par, hpar, he⟩ := hdir hd
      exact ⟨par, hpar, by rw [he]; rfl⟩
    · rw [update_of_ne hdi] at hd ⊢
      exact h.dots d hd
  · by_cases hdi : d = i
    · subst hdi
      rw [update_self] at hd he
      simp [hrest hd] at he
    · rw [update_of_ne hdi] at hd he
      exact h.plain d hd e he
  · by_cases hdi : d = i
    · subst hdi
      rw [update_self] at hd he
      simp [hrest hd] at he
    rw [update_of_ne hdi] at hd he
    have hkid := h.kids d hd e he hz
    have hne : e.inum ≠ i := by
      rintro rfl
      exact hkid hfree
    rw [update_of_ne hne]
    exact hkid
  · rw [hnames]
    by_cases hdi : d = i
    · subst hdi
      omega
    · rw [update_of_ne hdi] at hd
      exact h.once d hd

theorem free (hlive : (t i).type ≠ .free) (hz : (t i).nlink = 0)
    (hold : ∀ q, (t i).count q = 0) :
    Counted sb extra (update t i (Fs.freed (t i))) ∧
      ∀ j, names sb (update t i (Fs.freed (t i))) j = names sb t j := by
  obtain ⟨hnone, -, hroot, hextra⟩ := h.of_nlink_eq_zero hz
  have hi := h.inum i hlive
  have hnew : ∀ q, (Fs.freed (t i)).count q = 0 := fun q =>
    Inode.count_of_type (by simp [Fs.freed]) q
  have hnames := names_update_empty hi.2 hold hnew
  have hdir : ∀ d, (update t i (Fs.freed (t i)) d).type = .dir → d ≠ i := by
    rintro d hd rfl
    simp [Fs.freed] at hd
  refine ⟨⟨?_, fun j hj => ?_, fun j => ?_, fun d hd => ?_, fun d hd => ?_,
    fun d hd e he hz' => ?_, fun d hd => ?_⟩, hnames⟩
  · rw [update_of_ne (.symm hroot)]
    exact h.root
  · by_cases hji : j = i
    · exact hji ▸ hi
    · rw [update_of_ne hji] at hj
      exact h.inum j hj
  · rw [hnames]
    by_cases hji : j = i
    · subst hji
      have hsub : subdirs (update t j (Fs.freed (t j))) j = 0 := by
        rw [subdirs, update_self]
        exact hnew _
      rw [update_self, hsub, hnone, if_neg hroot, hextra]
      show (t j).nlink.toInt = _
      rw [hz]
      rfl
    · rw [update_of_ne hji, h.subdirs_update hnone hji]
      exact h.links j
  · have hdi := hdir d hd
    rw [update_of_ne hdi] at hd ⊢
    exact h.dots d hd
  · have hdi := hdir d hd
    rw [update_of_ne hdi] at hd ⊢
    exact h.plain d hd
  · have hdi := hdir d hd
    rw [update_of_ne hdi] at hd he
    have hne : e.inum ≠ i := by
      rintro rfl
      have := h.names_pos hd he hz'
      omega
    rw [update_of_ne hne]
    exact h.kids d hd e he hz'
  · have hdi := hdir d hd
    rw [update_of_ne hdi] at hd
    rw [hnames]
    exact h.once d hd

end Counted

end Xv6.Sys
