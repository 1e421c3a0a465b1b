import Xv6.Fs.Dir
import Xv6.Fs.Held

namespace Xv6.Fs

open Lib Sys
open List (range range')

def cstr (n : ℕ) (p : List UInt8) : List UInt8 := (p.take n).takeWhile (· ≠ 0)

theorem cstr_succ (n : ℕ) (p : List UInt8) :
    cstr (n + 1) p = if p.headD 0 ≠ 0 then p.headD 0 :: cstr n p.tail else [] := by
  cases p with
  | nil => rfl
  | cons c p =>
    by_cases hc : c = 0
    · simp [cstr, hc]
    · simp [cstr, hc]

variable {n : ℕ}

theorem strncmp_eq_zero {p q : List UInt8} : strncmp n p q = 0 ↔ cstr n p = cstr n q := by
  induction n generalizing p q with
  | zero => simp [strncmp, cstr]
  | succ n ih =>
    rw [strncmp, cstr_succ, cstr_succ]
    generalize p.headD 0 = a, q.headD 0 = b
    by_cases ha : a = 0
    · rw [if_neg fun h => h.1 ha, if_neg (not_not.2 ha), ha]
      by_cases hb : b = 0
      · simp [hb]
      · have hb' : b.toNat ≠ 0 := fun h => hb (UInt8.toNat_inj.1 h)
        rw [if_pos hb, UInt8.toNat_zero]
        refine iff_of_false (fun h => ?_) (List.cons_ne_nil _ _).symm
        omega
    · rw [if_pos ha]
      by_cases hab : a = b
      · rw [if_pos ⟨ha, hab⟩, ih, if_pos (hab ▸ ha), hab, List.cons.injEq]
        exact (and_iff_right rfl).symm
      have hab' : a.toNat ≠ b.toNat := fun h => hab (UInt8.toNat_inj.1 h)
      rw [if_neg fun h => hab h.2]
      refine iff_of_false (fun h => ?_) fun h => ?_
      · omega
      by_cases hb : b = 0
      · rw [if_neg (not_not.2 hb)] at h
        exact List.cons_ne_nil _ _ h
      · rw [if_pos hb] at h
        exact hab (List.cons.inj h).1

@[simp] theorem length_strncpy (n : ℕ) (t : List UInt8) : (strncpy n t).length = n := by
  induction n generalizing t with
  | zero => rfl
  | succ n ih =>
    rw [strncpy]
    split
    · rw [List.length_cons, ih]
    · rw [List.length_replicate]

theorem cstr_strncpy (n : ℕ) (t : List UInt8) : cstr n (strncpy n t) = cstr n t := by
  induction n generalizing t with
  | zero => rfl
  | succ n ih =>
    rw [cstr_succ, cstr_succ n t, strncpy]
    by_cases ht : t.headD 0 = 0
    · rw [if_neg (not_not.2 ht), if_neg (not_not.2 ht)]
      simp [List.replicate_succ]
    · rw [if_pos ht, if_pos ht, List.headD_cons, if_pos ht, List.tail_cons, ih]

def inumAt (φ : ℕ → Block) (k : ℕ) : ℕ := direntInum (stream φ (16 * k) 16)

def nameAt (φ : ℕ → Block) (k : ℕ) : Name := cstr DIRSIZ (direntName (stream φ (16 * k) 16))

def Names (φ : ℕ → Block) (name : Name) (k : ℕ) : Prop :=
  inumAt φ k ≠ 0 ∧ nameAt φ k = cstr DIRSIZ name

instance (φ : ℕ → Block) (name : Name) (k : ℕ) : Decidable (Names φ name k) :=
  inferInstanceAs (Decidable (_ ∧ _))

def slotOf (φ : ℕ → Block) (n : ℕ) (name : Name) : Option ℕ :=
  (List.range n).find? fun k => decide (Names φ name k)

def spareOf (φ : ℕ → Block) (n : ℕ) : ℕ :=
  ((List.range n).find? fun k => decide (inumAt φ k = 0)).getD n

def newEntry (inum : ℕ) (name : Name) : List UInt8 := direntBytes inum (strncpy DIRSIZ name)

variable {k : ℕ}

theorem getD_direntBytes (inum : ℕ) (name : List UInt8) (hk : k < 16) :
    (direntBytes inum name).getD k 0 =
      if k < 2 then UInt8.ofNat (inum / 256 ^ k) else name.getD (k - 2) 0 := by
  rw [direntBytes, List.getD_eq_getElem _ _ (by simpa using hk)]
  simp

theorem direntInum_direntBytes (inum : ℕ) (name : List UInt8) :
    direntInum (direntBytes inum name) = inum % 2 ^ 16 := by
  rw [direntInum, getD_direntBytes _ _ (by omega), getD_direntBytes _ _ (by omega),
    if_pos (by omega), if_pos (by omega), UInt8.toNat_ofNat', UInt8.toNat_ofNat']
  omega

theorem direntName_direntBytes (inum : ℕ) {name : List UInt8} (h : name.length = DIRSIZ) :
    direntName (direntBytes inum name) = name := by
  unfold direntName
  refine List.ext_getElem ?_ fun k hk hk' => ?_
  · rw [List.length_drop, length_direntBytes, h]
  have hk2 : 2 + k < 16 := by
    rw [h] at hk'
    simp only [DIRSIZ] at hk'
    omega
  rw [List.getElem_drop, ← List.getD_eq_getElem _ 0, getD_direntBytes _ _ hk2,
    if_neg (by omega), Nat.add_sub_cancel_left, List.getD_eq_getElem _ _ hk']

@[simp] theorem length_newEntry (inum : ℕ) (name : Name) : (newEntry inum name).length = 16 :=
  length_direntBytes ..

variable {φ : ℕ → Block}

theorem slotOf_none {name : Name} : slotOf φ n name = none ↔ ∀ k < n, ¬Names φ name k := by
  simp [slotOf]

theorem slotOf_some {name : Name} (h : slotOf φ n name = some k) :
    k < n ∧ Names φ name k ∧ ∀ j < k, ¬Names φ name j := by
  obtain ⟨hp, hmem, hmin⟩ := List.find?_range_eq_some.1 h
  refine ⟨List.mem_range.1 hmem, of_decide_eq_true hp, fun j hj hc => ?_⟩
  have := hmin j hj
  rw [decide_eq_true hc] at this
  exact absurd this (by decide)

theorem spareOf_le (φ : ℕ → Block) (n : ℕ) : spareOf φ n ≤ n := by
  unfold spareOf
  rcases h : (range n).find? fun k => decide (inumAt φ k = 0) with _ | k
  · exact le_rfl
  · exact (List.mem_range.1 (List.mem_of_find?_eq_some h)).le

theorem spareOf_empty (h : spareOf φ n < n) : inumAt φ (spareOf φ n) = 0 := by
  unfold spareOf at h ⊢
  rcases hf : (range n).find? fun k => decide (inumAt φ k = 0) with _ | k
  · rw [hf] at h
    exact absurd h (lt_irrefl n)
  · have hp := List.find?_some hf
    exact of_decide_eq_true hp

theorem spareOf_eq_iff : spareOf φ n = n ↔ ∀ k < n, inumAt φ k ≠ 0 := by
  constructor
  · intro h k hk hz
    unfold spareOf at h
    rcases hf : (range n).find? fun k => decide (inumAt φ k = 0) with _ | j
    · rw [List.find?_range_eq_none] at hf
      have := hf k hk
      rw [decide_eq_true hz] at this
      exact absurd this (by decide)
    · rw [hf] at h
      exact absurd (List.mem_range.1 (List.mem_of_find?_eq_some hf)) (by
        rw [show j = n from h]
        exact lt_irrefl n)
  · intro h
    by_contra hne
    exact h _ ((spareOf_le φ n).lt_of_ne hne) (spareOf_empty ((spareOf_le φ n).lt_of_ne hne))

section
variable {sb : Super} {I : ℕ → Dinode} {Φ : ℕ → ℕ → Block} {s0 s1 : State} {m : Multiset ℕ}
  {dp n k turns : ℕ} {name : Name}

structure IsDir (sb : Super) (I : ℕ → Dinode) (dp n : ℕ) : Prop where
  lt : dp < sb.ninodes
  type : (I dp).type = T_DIR
  size : (I dp).size = 16 * n

theorem IsDir.le (hd : IsDir sb I dp n) (h : Settled sb I Φ s1) : 16 * n ≤ MAXFILE * BSIZE := by
  rw [← hd.size]
  exact cdiv_le_iff.1 (h.filled dp hd.lt (hd.type ▸ by decide)).le

section
variable (h : Settled sb I Φ s1)
include h

theorem Settled.inode_eq (hd : dp < sb.ninodes) (hv : s1.valid dp = true) : s1.inode dp = I dp :=
  (h.cache dp hd (Option.some_ne_none dp) hv).1

theorem readDirent_spec (hv : s1.valid dp = true) (hd : IsDir sb I dp n)
    (hk : k < n) (e : Panic) :
    Triple (· = s1) (readDirent sb e dp (16 * k))
      (fun de s => de = stream (Φ dp) (16 * k) 16 ∧ s = s1) Never := by
  have hle := hd.le h
  have hoff : (UInt32.ofNat (16 * k)).toNat = 16 * k :=
    UInt32.toNat_ofNat_of_lt (lt_of_lt_of_le (by omega) (hle.trans (by decide)))
  have hadd : ¬UInt32.ofNat (16 * k) + 16 < UInt32.ofNat (16 * k) := by
    intro hlt
    have := lt_of_add_lt hlt
    rw [hoff] at this
    simp only [MAXFILE, NDIRECT, NINDIRECT, BSIZE] at hle
    have h16 : (16 : UInt32).toNat = 16 := rfl
    omega
  unfold readDirent
  refine .bind (readi_spec h hd.lt hv (hd.type ▸ by decide) none) fun r =>
    .of_and fun hr => ?_
  have hlen : min (16 : UInt32).toNat ((I dp).size - 16 * k) = 16 := by
    rw [hd.size]
    have h16 : (16 : UInt32).toNat = 16 := rfl
    omega
  rw [hoff, if_neg (by rw [hd.size, not_or, not_lt]; exact ⟨by omega, hadd⟩), hlen] at hr
  rw [hr]
  show Triple _ (if (stream (Φ dp) (16 * k) 16).length = 16 then _ else _) _ _
  rw [if_pos (length_stream ..)]
  exact .pure fun s hs => ⟨rfl, hs⟩

theorem readSize_spec (hv : s1.valid dp = true) (hd : IsDir sb I dp n) :
    Triple (· = s1) (.read fun s => (s.inode dp).size : Op ℕ)
      (fun size s => size = 16 * n ∧ s = s1) Never :=
  .read fun s hs => ⟨by rw [hs, h.inode_eq hd.lt hv, hd.size], hs⟩

end

def found {β : Type} (r : Option (ℕ × β)) : Multiset ℕ := r.elim 0 fun x => {x.1}

def hit (φ : ℕ → Block) (k : ℕ) : ℕ × ℕ := (inumAt φ k, 16 * k)

theorem dirlookupLoop_spec (h : Held sb I Φ s0 m s1) (hv : s1.valid dp = true)
    (hd : IsDir sb I dp n) (hk : k ≤ n) (hturns : n - k ≤ turns) :
    Triple (· = s1) (dirlookupLoop sb dp name turns (16 * k))
      (fun r s => r = ((range' k (n - k)).find? fun j => decide (Names (Φ dp) name j)).map
          (hit (Φ dp)) ∧ (r = none → s = s1) ∧ Held sb I Φ s0 (found r + m) s)
      fun e _ => e = .igetNoInodes ∧
        ((range' k (n - k)).find? fun j => decide (Names (Φ dp) name j)) ≠ none := by
  induction turns generalizing k with
  | zero =>
    refine .pure fun s hs => ?_
    rw [show n - k = 0 by omega]
    exact ⟨rfl, fun _ => hs, by rw [hs]; exact (zero_add m).symm ▸ h⟩
  | succ turns ih =>
    unfold dirlookupLoop
    refine .bind ((readSize_spec h.settled hv hd).panics _) fun size =>
      .of_and fun hsize => ?_
    rw [hsize]
    refine .ite (fun hlt => ?_) fun hge => .pure fun s hs => ?_
    · have hkn : k < n := by omega
      refine .bind ((readDirent_spec h.settled hv hd hkn _).panics _) fun de =>
        .of_and fun hde => ?_
      rw [hde]
      have hsplit : n - k = (n - (k + 1)) + 1 := by omega
      rw [hsplit, List.range'_succ, List.find?_cons]
      have hnames : (direntInum (stream (Φ dp) (16 * k) 16) ≠ 0 ∧
          namecmp name (direntName (stream (Φ dp) (16 * k) 16)) = 0) ↔ Names (Φ dp) name k := by
        rw [namecmp, strncmp_eq_zero, eq_comm]
        rfl
      refine .ite (fun hyes => ?_) fun hno => ?_
      · rw [decide_eq_true (hnames.1 hyes)]
        refine .bind (Held.iget.conseq (fun s hs => by rw [hs]; exact h)
          (fun _ _ hr => hr) fun e _ he => ⟨he, Option.some_ne_none _⟩) fun _ =>
          .pure fun s hs => ⟨rfl, fun hnone => absurd hnone (Option.some_ne_none _), hs⟩
      · rw [decide_eq_false (mt hnames.2 hno)]
        exact ih (k := k + 1) (by omega) (by omega)
    · rw [show n - k = 0 by omega]
      exact ⟨rfl, fun _ => hs, by rw [hs]; exact (zero_add m).symm ▸ h⟩

theorem dirlookup_spec (h : Held sb I Φ s0 m s1) (hv : s1.valid dp = true)
    (hd : IsDir sb I dp n) :
    Triple (· = s1) (dirlookup sb dp name)
      (fun r s => r = (slotOf (Φ dp) n name).map (hit (Φ dp)) ∧ (r = none → s = s1) ∧
        Held sb I Φ s0 (found r + m) s)
      fun e _ => e = .igetNoInodes ∧ slotOf (Φ dp) n name ≠ none := by
  unfold dirlookup
  refine .bind (R := fun x s => x = I dp ∧ s = s1)
    (.read fun s hs => ⟨by rw [hs, h.settled.inode_eq hd.lt hv], hs⟩) fun x => .of_and fun hx => ?_
  rw [hx, if_neg (not_not.2 hd.type), hd.size, slotOf, List.range_eq_range']
  exact dirlookupLoop_spec h hv hd (Nat.zero_le n) (by omega)

variable (h : Settled sb I Φ s1) (hv : s1.valid dp = true) (hd : IsDir sb I dp n)
include h hv hd

theorem spareLoop_spec
    (hk : k ≤ n) (hturns : n - k ≤ turns) :
    Triple (· = s1) (spareLoop sb dp turns (16 * k))
      (fun off s => off = 16 * ((range' k (n - k)).find?
        fun j => decide (inumAt (Φ dp) j = 0)).getD n ∧ s = s1) Never := by
  induction turns generalizing k with
  | zero =>
    obtain rfl : k = n := by omega
    refine .pure fun s hs => ⟨?_, hs⟩
    rw [Nat.sub_self]
    rfl
  | succ turns ih =>
    unfold spareLoop
    refine .bind (readSize_spec h hv hd) fun size => .of_and fun hsize => ?_
    rw [hsize]
    refine .ite (fun hlt => ?_) fun hge => .pure fun s hs => ⟨?_, hs⟩
    · have hkn : k < n := by omega
      refine .bind (readDirent_spec h hv hd hkn _) fun de => .of_and fun hde => ?_
      rw [hde]
      have hsplit : n - k = (n - (k + 1)) + 1 := by omega
      rw [hsplit, List.range'_succ, List.find?_cons]
      refine .ite (fun hz => ?_) fun hz => ?_
      · rw [decide_eq_true (show inumAt (Φ dp) k = 0 from hz)]
        exact .pure fun s hs => ⟨rfl, hs⟩
      · rw [decide_eq_false (show ¬inumAt (Φ dp) k = 0 from hz)]
        exact ih (k := k + 1) (by omega) (by omega)
    · obtain rfl : k = n := by omega
      rw [Nat.sub_self]
      rfl

theorem isdiremptyLoop_spec (hturns : n - k ≤ turns) :
    Triple (· = s1) (isdiremptyLoop sb dp turns (16 * k))
      (fun r s => (r = true ↔ ∀ j, k ≤ j → j < n → inumAt (Φ dp) j = 0) ∧ s = s1)
      Never := by
  induction turns generalizing k with
  | zero => exact .pure fun s hs => ⟨iff_of_true rfl fun j h1 h2 => by omega, hs⟩
  | succ turns ih =>
    unfold isdiremptyLoop
    refine .bind (readSize_spec h hv hd) fun size => .of_and fun hsize => ?_
    rw [hsize]
    refine .ite (fun hlt => ?_) fun hge =>
      .pure fun s hs => ⟨iff_of_true rfl fun j h1 h2 => by omega, hs⟩
    have hkn : k < n := by omega
    refine .bind (readDirent_spec h hv hd hkn _) fun de => .of_and fun hde => ?_
    rw [hde]
    refine .ite (fun hz => .pure fun s hs => ⟨?_, hs⟩) fun hz => ?_
    · exact iff_of_false Bool.false_ne_true fun hall => hz (hall k le_rfl hkn)
    refine (ih (k := k + 1) (by omega)).post fun r s hr => ⟨hr.1.trans ⟨fun hall j h1 h2 => ?_,
      fun hall j h1 h2 => hall j (by omega) h2⟩, hr.2⟩
    rcases Nat.eq_or_lt_of_le h1 with rfl | hlt'
    · exact not_not.1 hz
    · exact hall j hlt' h2

theorem isdirempty_spec :
    Triple (· = s1) (isdirempty sb dp)
      (fun r s => (r = true ↔ ∀ j, 2 ≤ j → j < n → inumAt (Φ dp) j = 0) ∧ s = s1)
      Never := by
  unfold isdirempty
  refine .bind (readSize_spec h hv hd) fun size => .of_and fun hsize => ?_
  rw [hsize]
  exact isdiremptyLoop_spec (k := 2) h hv hd (by omega)

end

variable {sb : Super} {I : ℕ → Dinode} {Φ : ℕ → ℕ → Block} {s0 s1 : State} {m : Multiset ℕ}
  {dp n k inum : ℕ} {name : Name} {de : List UInt8}

def Entered (sb : Super) (I : ℕ → Dinode) (Φ : ℕ → ℕ → Block) (dp k : ℕ) (de : List UInt8)
    (s₁ s : State) : Prop :=
  ∃ x, x = { (I dp).stretch (16 * k + 16) with addrs := x.addrs } ∧
    Settled sb (Function.update I dp x) (Function.update Φ dp (splice (Φ dp) (16 * k) de)) s ∧
    Beside dp s₁ s

section
variable {s : State} (he : Entered sb I Φ dp k de s1 s) (hd : IsDir sb I dp n)
include he hd

theorem Entered.le : 16 * k + 16 ≤ MAXFILE * BSIZE := by
  obtain ⟨x, hx, hset, -⟩ := he
  have hsize : x.size = max (I dp).size (16 * k + 16) := by
    rw [hx]
    rfl
  have htype : x.type = T_DIR := by
    rw [hx]
    exact hd.type
  have hle := (hset.filled dp hd.lt (by
    rw [Function.update_self, htype]
    decide)).le
  rw [Function.update_self, cdiv_le_iff, hsize] at hle
  exact (le_max_right ..).trans hle

theorem Entered.grown_le : grown sb I dp (16 * k + 16) ≤ sb.nblocks := by
  obtain ⟨x, hx, hset, -⟩ := he
  have hsize : x.size = max (I dp).size (16 * k + 16) := by
    rw [hx]
    rfl
  have hle := Core.used_le hset
  rw [cdiv_stretch hsize, used_addrs hd.lt (by rw [hx]; rfl)] at hle
  exact (Nat.le_add_right _ _).trans hle

end

theorem writeDirent_spec (h : Settled sb I Φ s1) (hv : s1.valid dp = true) (hd : IsDir sb I dp n)
    (hk : k ≤ n) (hde : de.length = 16) (e : Panic) :
    Triple (· = s1) (writeDirent sb e dp (16 * k) de)
      (fun _ => Entered sb I Φ dp k de s1)
      fun e' _ => (MAXFILE * BSIZE < 16 * k + 16 ∧ e' = e) ∨
        (16 * k + 16 ≤ MAXFILE * BSIZE ∧ sb.nblocks < grown sb I dp (16 * k + 16) ∧
          e' = .outOfBlocks) := by
  have hle := hd.le h
  have hoff : (UInt32.ofNat (16 * k)).toNat = 16 * k :=
    UInt32.toNat_ofNat_of_lt (lt_of_le_of_lt (by omega) (hle.trans_lt (by decide)))
  have hwrite : Triple (· = s1) (writei sb none dp de (.ofNat (16 * k)) 16) _ _ :=
    ((writei_spec h hd.lt hv (hd.type ▸ by decide) (hde.trans rfl) none).and
      (keeps_writei none de (.ofNat (16 * k)) 16)).pre fun s hs =>
        ⟨hs, by rw [hs]; exact ⟨rfl, rfl, fun _ _ => rfl⟩⟩
  rw [hoff, show (16 : UInt32).toNat = 16 from rfl] at hwrite
  unfold writeDirent
  refine .bind (hwrite.err fun e' s he => .inr ⟨Nat.le_of_not_lt fun hbig => he.1.2.1 (.inr hbig),
    he.1.2.2.1, he.1.1⟩) fun r => .of_state fun s2 hr => ?_
  obtain ⟨⟨hrefused, rfl, -⟩ | ⟨-, rfl, x, hx, hs2, -⟩, hbeside⟩ := hr
  · rw [if_neg (by decide)]
    refine .panic fun s _ => .inl ⟨?_, rfl⟩
    rcases hrefused with hgap | hbig
    · rw [hd.size] at hgap
      omega
    · exact hbig
  · rw [if_pos rfl]
    exact .pure fun s hs => by rw [hs]; exact ⟨x, hx, hs2, hbeside⟩

theorem dirlink_new (h : Held sb I Φ s0 m s1) (hv : s1.valid dp = true) (hd : IsDir sb I dp n)
    (hslot : slotOf (Φ dp) n name = none) :
    Triple (· = s1) (dirlink sb dp name inum)
      (fun r s => r = 0 ∧ Entered sb I Φ dp (spareOf (Φ dp) n) (newEntry inum name) s1 s)
      fun e _ => (MAXFILE * BSIZE < 16 * spareOf (Φ dp) n + 16 ∧ e = .dirlink) ∨
        (16 * spareOf (Φ dp) n + 16 ≤ MAXFILE * BSIZE ∧
          sb.nblocks < grown sb I dp (16 * spareOf (Φ dp) n + 16) ∧ e = .outOfBlocks) := by
  unfold dirlink
  refine .bind ((dirlookup_spec h hv hd).err fun e _ he => absurd hslot he.2) fun r =>
    .of_and fun hr => ?_
  rw [hslot] at hr
  subst hr
  refine .of_state fun s2 hs2 => ?_
  obtain rfl : s2 = s1 := hs2.1 rfl
  refine .bind ((readSize_spec h.settled hv hd).panics _) fun size =>
    .of_and fun hsize => ?_
  rw [hsize]
  have hspare : Triple (· = s2) (spareLoop sb dp (16 * n) (16 * 0)) _ _ :=
    spareLoop_spec h.settled hv hd (Nat.zero_le n) (by omega)
  rw [Nat.sub_zero, ← List.range_eq_range'] at hspare
  refine .bind (hspare.panics _) fun off => .of_and fun hoff => ?_
  rw [show off = 16 * spareOf (Φ dp) n from hoff]
  exact .bind (writeDirent_spec h.settled hv hd (spareOf_le _ n)
    (length_newEntry inum name) .dirlink) fun _ => .pure fun s hs => ⟨rfl, hs⟩

theorem dirlink_spec (h : Held sb I Φ s0 m s1) (hv : s1.valid dp = true) (hd : IsDir sb I dp n)
    (hlive : Live sb I s0)
    (hin : ∀ k < n, inumAt (Φ dp) k ≠ 0 → inumAt (Φ dp) k < sb.ninodes) :
    Triple (· = s1) (dirlink sb dp name inum)
      (fun r s => (slotOf (Φ dp) n name ≠ none ∧ r = -1 ∧ Held sb I Φ s0 m s) ∨
        (slotOf (Φ dp) n name = none ∧ r = 0 ∧
          Entered sb I Φ dp (spareOf (Φ dp) n) (newEntry inum name) s1 s))
      fun e _ => (slotOf (Φ dp) n name ≠ none ∧ e = .igetNoInodes) ∨
        (slotOf (Φ dp) n name = none ∧
          ((MAXFILE * BSIZE < 16 * spareOf (Φ dp) n + 16 ∧ e = .dirlink) ∨
          (16 * spareOf (Φ dp) n + 16 ≤ MAXFILE * BSIZE ∧
            sb.nblocks < grown sb I dp (16 * spareOf (Φ dp) n + 16) ∧ e = .outOfBlocks))) := by
  rcases hslot : slotOf (Φ dp) n name with _ | k
  · exact (dirlink_new h hv hd hslot).mono (fun r s hs => .inr ⟨rfl, hs⟩)
      fun e _ he => .inr ⟨rfl, he⟩
  · -- the name is there
    unfold dirlink
    refine .bind ((dirlookup_spec h hv hd).err fun e _ he => .inl ⟨hslot ▸ he.2, he.1⟩) fun r =>
      .of_and fun hr => ?_
    have hk := slotOf_some hslot
    rw [hslot] at hr
    subst hr
    have hlt := hin k hk.1 hk.2.1.1
    refine .bind (((Held.iput (i := inumAt (Φ dp) k) hlive hlt
      (Multiset.mem_add.2 (.inl (Multiset.mem_singleton_self _)))).panics _).pre
      fun s hs => hs.2) fun _ => .pure fun s hs => .inl ⟨Option.some_ne_none _, rfl, ?_⟩
    rwa [Multiset.singleton_add, Multiset.erase_cons_head] at hs

end Xv6.Fs
