import Xv6.Sys.Steps

namespace Xv6.Sys

open Lib

variable {P : Type} [Fintype P] [DecidableEq P] {α β : Type}

abbrev Keeps (depth : ℕ → ℕ) (p : P) (Q : α → Claims → List ℕ → Fs P → Prop) (x : Op P α)
    (last : Option ℕ) (c : Claims) (H : List ℕ) (s : Fs P) : Prop :=
  (discipline depth).Safe p Q x last c H s

variable {depth : ℕ → ℕ} {p : P} {Q : α → Claims → List ℕ → Fs P → Prop} {last : Option ℕ}
  {c c' : Claims} {H : List ℕ} {s : Fs P}

def InOrder (depth : ℕ → ℕ) (H : List ℕ) (i : ℕ) (s : Fs P) : Prop :=
  ∀ j ∈ H, (s.inode j).type = .dir ∧ s.Below depth j i

omit [Fintype P] [DecidableEq P] in
theorem inOrder_nil {i : ℕ} : InOrder depth [] i s := fun _ hj => by cases hj

theorem keeps_bind {x : Op P β} {k : β → Op P α}
    (h : Keeps depth p (fun b c H s => ∀ last, Keeps depth p Q (k b) last c H s) x last c H s) :
    Keeps depth p Q (x >>= k) last c H s :=
  Discipline.Safe.bind h

theorem keeps_pure {a : α} (h : ∀ s', Rely p c H s s' → Knows depth c s' → Q a c H s') :
    Keeps depth p Q (Pure.pure a) last c H s := h

theorem keeps_panic {e : Panic} (h : e ≠ .dirWrite) : Keeps depth p Q (.panic e) last c H s :=
  fun _ _ _ => h

theorem keeps_look {k : Fs P → Op P α}
    (h : ∀ s', Rely p c H s s' → Knows depth c s' → Keeps depth p Q (k s') none c H s') :
    Keeps depth p Q (.act id k) last c H s :=
  fun s' hr hk _ => ⟨c, hk.still ⟨fun _ => rfl, fun _ => rfl, rfl⟩ rfl (fun _ _ => ⟨rfl, rfl⟩) rfl,
    h s' hr hk⟩

theorem keeps_read {f : Fs P → β} {k : β → Op P α}
    (h : ∀ s', Rely p c H s s' → Knows depth c s' → Keeps depth p Q (k (f s')) none c H s') :
    Keeps depth p Q (Prog.read f >>= k) last c H s := keeps_look h

variable {f : Fs P → Fs P}

theorem keeps_act {k : Fs P → Op P α} (c' : Claims)
    (hg : ∀ s', Rely p c H s s' → Knows depth c s' → s'.Allow (f s') →
      Guar depth p c H s' c' (f s'))
    (h : ∀ s', Rely p c H s s' → Knows depth c s' → Keeps depth p Q (k s') none c' H (f s')) :
    Keeps depth p Q (.act f k) last c H s :=
  fun s' hr hk ha => ⟨c', hg s' hr hk ha, h s' hr hk⟩

variable {k : Unit → Op P α}

theorem keeps_modify (c' : Claims)
    (hg : ∀ s', Rely p c H s s' → Knows depth c s' → s'.Allow (f s') →
      Guar depth p c H s' c' (f s'))
    (h : ∀ s', Rely p c H s s' → Knows depth c s' → Keeps depth p Q (k ()) none c' H (f s')) :
    Keeps depth p Q (Prog.modify f >>= k) last c H s := keeps_act c' hg h

theorem keeps_still (ht : ∀ s : Fs P, s.SameTree (f s)) (hf : ∀ s, (f s).file = s.file)
    (ho : ∀ s, (f s).ofile = s.ofile) (hc : ∀ s, (f s).cwd = s.cwd) (hr : ∀ s, (f s).ref = s.ref)
    (h : ∀ s', Rely p c H s s' → Keeps depth p Q (k ()) none c H s') :
    Keeps depth p Q (Prog.modify f >>= k) last c H s :=
  keeps_modify c
    (fun s' _ hk _ => hk.still (ht s') (hf s') (fun q _ => by simp [ho, hc]) (hr s'))
    (fun s' hr _ => h _ (hr.trans (.of_sameTree (ht s') (hf s') (by rw [ho]) (by rw [hc]))))

theorem keeps_beginOp (h : ∀ s', Rely p c H s s' → Keeps depth p Q (k ()) none c H s') :
    Keeps depth p Q (beginOp >>= k) last c H s :=
  keeps_still (fun _ => ⟨fun _ => rfl, fun _ => rfl, rfl⟩) (fun _ => rfl) (fun _ => rfl)
    (fun _ => rfl) (fun _ => rfl) h

theorem keeps_endOp (h : ∀ s', Rely p c H s s' → Keeps depth p Q (k ()) none c H s') :
    Keeps depth p Q (endOp >>= k) last c H s :=
  keeps_still (fun _ => ⟨fun _ => rfl, fun _ => rfl, rfl⟩) (fun _ => rfl) (fun _ => rfl)
    (fun _ => rfl) (fun _ => rfl) h

theorem keeps_endOp_last {Q : Unit → Claims → List ℕ → Fs P → Prop}
    (h : ∀ s', Rely p c H s s' → Knows depth c s' → Q () c H s') :
    Keeps depth p Q endOp last c H s := by
  refine keeps_act c (fun s' _ hk _ => hk.still ⟨fun _ => rfl, fun _ => rfl, rfl⟩ rfl
    (fun _ _ => ⟨rfl, rfl⟩) rfl) fun s1 hr1 _ => keeps_pure fun s2 hr2 =>
      h s2 (hr1.trans (.trans ?_ hr2))
  exact .of_sameTree ⟨fun _ => rfl, fun _ => rfl, rfl⟩ rfl rfl rfl

section
variable {Q : Unit → Claims → List ℕ → Fs P → Prop} {sb : Super} {ip : ℕ}

theorem keeps_iget (hi : ∀ s', Rely p c H s s' → Knows depth c s' →
      0 < c.held ip ∨ c.fresh = some ip ∨ ip = ROOTINO ∨ s'.Named ip ∨ 0 < s'.openCount ip)
    (hQ : ∀ s', Rely p c H s s' → Knows depth (c.take ip) s' → Q () (c.take ip) H s') :
    Keeps depth p Q (iget sb ip) last c H s := by
  refine keeps_act (c.take ip) (fun s' hr hk _ => hk.iget (hi s' hr hk)) fun s' hr _ => ?_
  split
  · exact keeps_panic (by decide)
  · exact keeps_pure fun s'' hr' hk' => hQ s'' (hr.trans ((Rely.iget ip).trans hr'.of_take)) hk'

theorem keeps_idup (hi : 0 < c.held ip)
    (hQ : ∀ s', Rely p c H s s' → Knows depth (c.take ip) s' → Q () (c.take ip) H s') :
    Keeps depth p Q (idup ip) last c H s := by
  refine keeps_act (c.take ip) (fun s' hr hk _ => hk.idup hi) fun s' hr _ => ?_
  exact keeps_pure fun s'' hr' hk' => hQ s'' (hr.trans ((Rely.idup ip).trans hr'.of_take)) hk'

theorem keeps_ilock (ho : ∀ s', Rely p c H s s' → Knows depth c s' → InOrder depth H ip s')
    (hQ : ip ≠ 0 ∧ ip ∉ H → ∀ s', Rely p c H s s' → Knows depth c s' → Q () c (ip :: H) s') :
    Keeps depth p Q (ilock ip) last c H s := by
  refine keeps_look fun s1 hr1 _ => ?_
  split
  · exact keeps_panic (by decide)
  rename_i hok
  intro s2 hr2 hk2
  have hr2 := hr1.trans hr2
  refine ⟨ho s2 hr2 hk2, fun hip => ?_⟩
  refine keeps_act c (fun s' _ hk _ => hk.still (s'.load_sameTree ip) rfl (fun _ _ => ⟨rfl, rfl⟩)
    rfl) fun s3 hr3 _ => ?_
  split
  · exact keeps_panic (by decide)
  · refine keeps_pure fun s4 hr4 hk4 => hQ ⟨fun h => hok (.inl h), hip⟩ s4 ?_ hk4
    have hload : Rely p c H s3 (s3.load ip) := .of_sameTree (s3.load_sameTree ip) rfl rfl rfl
    exact hr2.trans (hr3.of_cons.trans (hload.trans hr4.of_cons))

theorem keeps_ilock_first
    (hQ : ip ≠ 0 → ∀ s', Rely p c [] s s' → Knows depth c s' → Q () c [ip] s') :
    Keeps depth p Q (ilock ip) last c [] s :=
  keeps_ilock (fun _ _ _ => inOrder_nil) fun h => hQ h.1

theorem keeps_iput {site : Site}
    (ho : ∀ s', Rely p (c.take ip) H s s' → Knows depth (c.take ip) s' →
      LockOrder depth H last site ip s')
    (hfresh : c.fresh ≠ some ip)
    (hQ : ∀ s', Rely p c H s s' → Knows depth c s' → Q () c H s') :
    Keeps depth p Q (iput site ip) last (c.take ip) H s := by
  intro s1 hr1 hk1
  refine ⟨ho s1 hr1 hk1, fun hip => ?_⟩
  refine keeps_act (c.letGo ip) (fun s' _ hk ha => hk.reap ha List.mem_cons_self hfresh) ?_
  intro s2 hr2 hk2
  have hr2 : Rely p c H s (s2.reap ip) :=
    hr1.of_take.trans (hr2.of_take.of_cons.trans (.reap hk2 hfresh))
  intro s3 hr3 _
  refine ⟨List.mem_cons_self, ?_⟩
  rw [List.erase_cons_head]
  refine keeps_act c (fun s' _ hk _ => hk.drop) fun s4 hr4 _ => keeps_pure fun s5 hr5 hk5 => ?_
  exact hQ s5 (hr2.trans (hr3.of_going.of_cons.trans
    (hr4.of_going.trans ((Rely.drop ip).trans hr5)))) hk5

theorem keeps_iput_last (hfresh : c.fresh = none)
    (hQ : ∀ s', Rely p c [] s s' → Knows depth c s' → Q () c [] s') :
    Keeps depth p Q (iput .iput ip) last (c.take ip) [] s :=
  keeps_iput (fun _ _ _ => inOrder_nil) (by simp [hfresh]) hQ

theorem keeps_iunlock {H' : List ℕ} (hip : ip ∈ H) (hH : H.erase ip = H')
    (hQ : ∀ s', Rely p c H' s s' → Knows depth c s' → Q () c H' s') :
    Keeps depth p Q (iunlock ip) last c H s := by
  subst hH
  intro s1 hr1 _
  rw [decide_eq_true hip]
  refine keeps_look fun s2 hr2 _ => ?_
  split
  · exact keeps_panic (by decide)
  · intro s3 hr3 _
    refine ⟨hip, keeps_pure fun s4 hr4 hk4 => hQ s4 ?_ hk4⟩
    exact ((hr1.trans (hr2.trans hr3)).of_erase ip).trans hr4

theorem keeps_iunlock_last (hQ : ∀ s', Rely p c [] s s' → Knows depth c s' → Q () c [] s') :
    Keeps depth p Q (iunlock ip) last c [ip] s :=
  keeps_iunlock (List.mem_singleton_self ip) (List.erase_cons_head ..) hQ

theorem keeps_iunlockput {site : Site} {H' : List ℕ} (hip : ip ∈ H) (hH : H.erase ip = H')
    (ho : site ≠ .putParent → ∀ s', Rely p (c.take ip) H' s s' → Knows depth (c.take ip) s' →
      InOrder depth H' ip s')
    (hfresh : c.fresh ≠ some ip)
    (hQ : ∀ s', Rely p c H' s s' → Knows depth c s' → Q () c H' s') :
    Keeps depth p Q (iunlockput site ip) last (c.take ip) H s := by
  subst hH
  intro s1 hr1 _
  rw [decide_eq_true hip]
  refine keeps_look fun s2 hr2 _ => ?_
  beta_reduce
  split
  · exact keeps_panic (by decide)
  intro s3 hr3 _
  have hr3 := (hr1.trans (hr2.trans hr3)).of_erase ip
  refine ⟨hip, keeps_iput (fun s4 hr4 hk4 => ?_) hfresh fun s4 hr4 hk4 =>
    hQ s4 (hr3.of_take.trans hr4) hk4⟩
  cases site with
  | putParent => exact rfl
  | ilock => exact ho (by decide) s4 (hr3.trans hr4) hk4
  | iput => exact ho (by decide) s4 (hr3.trans hr4) hk4

theorem keeps_iunlockput_last (hfresh : c.fresh = none)
    (hQ : ∀ s', Rely p c [] s s' → Knows depth c s' → Q () c [] s') :
    Keeps depth p Q (iunlockput .iput ip) last (c.take ip) [ip] s :=
  keeps_iunlockput (List.mem_singleton_self ip) (List.erase_cons_head ..)
    (fun _ _ _ _ => inOrder_nil) (by simp [hfresh]) hQ

end

section

omit [Fintype P] [DecidableEq P]

theorem Fs.slot_eq_some {dp n : ℕ} {name : Name} (h : s.slot dp name = some n) :
    s.entry dp n ∈ (s.inode dp).entries ∧ (s.entry dp n).inum ≠ 0 ∧ (s.entry dp n).name = name := by
  obtain ⟨hn, he, -⟩ := List.findIdx?_eq_some_iff_getElem.1 h
  have hentry : s.entry dp n = (s.inode dp).entries[n] := by simp [Fs.entry, hn]
  rw [hentry]
  simp only [Bool.and_eq_true, decide_eq_true_eq] at he
  exact ⟨List.getElem_mem hn, he⟩

theorem Fs.slot_congr {s s' : Fs P} {dp : ℕ} (h : (s'.inode dp).entries = (s.inode dp).entries)
    (name : Name) : s'.slot dp name = s.slot dp name := by
  rw [Fs.slot, Fs.slot, h]

theorem Fs.entry_congr {s s' : Fs P} {dp : ℕ} (h : (s'.inode dp).entries = (s.inode dp).entries)
    (n : ℕ) : s'.entry dp n = s.entry dp n := by
  rw [Fs.entry, Fs.entry, h]

end

section
variable {Q : Option (ℕ × ℕ) → Claims → List ℕ → Fs P → Prop} {sb : Super} {dp : ℕ} {name : Name}

theorem keeps_dirlookup (hdp : 0 < c.held dp) (hH : dp ∈ H)
    (hnone : ∀ s', Rely p c H s s' → Knows depth c s' → (s'.inode dp).type = .dir →
      s'.slot dp name = none → Q none c H s')
    (hsome : ∀ n s', Rely p c H s s' → Knows depth (c.take (s'.entry dp n).inum) s' →
      (s'.inode dp).type = .dir → s'.slot dp name = some n →
      Q (some ((s'.entry dp n).inum, n)) (c.take (s'.entry dp n).inum) H s') :
    Keeps depth p Q (dirlookup sb dp name) last c H s := by
  refine keeps_look fun s1 hr1 _ => ?_
  split
  · exact keeps_panic (by decide)
  rename_i hdir
  rw [not_not] at hdir
  have hstay : ∀ {s2}, Rely p c H s1 s2 → (s2.inode dp).type = .dir ∧
      s2.slot dp name = s1.slot dp name ∧ ∀ n, s2.entry dp n = s1.entry dp n := by
    intro s2 hr
    have he := hr.entries dp (.inl ⟨hdp, hH⟩)
    exact ⟨(hr.kept dp (.inl hdp)).1.trans hdir, Fs.slot_congr he name, Fs.entry_congr he⟩
  cases hslot : s1.slot dp name with
  | none =>
    refine keeps_pure fun s2 hr2 hk2 => ?_
    obtain ⟨hdir2, hslot2, -⟩ := hstay hr2
    exact hnone s2 (hr1.trans hr2) hk2 hdir2 (hslot2.trans hslot)
  | some n =>
    refine keeps_bind (keeps_iget (fun s2 hr2 _ => ?_) fun s2 hr2 _ last =>
      keeps_pure fun s3 hr3 hk3 => ?_)
    · obtain ⟨hdir2, hslot2, hentry2⟩ := hstay hr2
      obtain ⟨hmem, hz, -⟩ := Fs.slot_eq_some (hslot2.trans hslot)
      rw [← hentry2]
      exact .inr (.inr (.inr (.inl ⟨dp, hdir2, _, hmem, hz, rfl⟩)))
    · have hr3 := hr2.trans hr3.of_take
      obtain ⟨hdir3, hslot3, hentry3⟩ := hstay hr3
      rw [← hentry3] at hk3 ⊢
      exact hsome n s3 (hr1.trans hr3) hk3 hdir3 (hslot3.trans hslot)

end

section
variable {Q : ℕ → Claims → List ℕ → Fs P → Prop} {sb : Super}

theorem keeps_ialloc {type : IType} (ht : type ≠ .free) (hfresh : c.fresh = none)
    (hQ : ∀ i s', Rely p c H s s' → Knows depth ((c.made i).take i) s' →
      (s'.inode i).type = type → (∀ j, 0 < c.held j → s'.Below depth j i) →
      Q i ((c.made i).take i) H s') :
    Keeps depth p Q (ialloc sb type) last c H s := by
  unfold ialloc
  generalize List.range' 1 (sb.ninodes - 1) = inums
  induction inums generalizing last s with
  | nil => exact keeps_panic (by decide)
  | cons i rest ih =>
    intro s1 hr1 hk1 _
    by_cases hfree : (s1.inode i).type = .free
    · refine ⟨c.made i, ?_, ?_⟩
      · beta_reduce
        rw [if_pos hfree]
        exact hk1.alloc hfree ht
      simp only [hfree, ↓reduceIte]
      have hr1' : Rely p c H s (s1.alloc i type) := hr1.trans (.alloc hk1 hfree type)
      have hof : ∀ {s s'}, Rely p (c.made i) H s s' → Rely p c H s s' := fun h =>
        h.weaken (fun _ => le_rfl) (fun _ => le_rfl) (fun j hj => by simp [hfresh] at hj)
          (fun _ h => h)
      refine keeps_bind (keeps_iget (fun _ _ _ => .inr (.inl rfl)) fun s2 hr2 _ last =>
        keeps_pure fun s3 hr3 hk3 => ?_)
      have hr3 := hr2.trans hr3.of_take
      refine hQ i s3 (hr1'.trans (hof hr3)) hk3 ?_ fun j hj _ => .inl ?_
      · rw [(hr3.kept i (.inr rfl)).1, Fs.alloc_inode_self]
      have hji : j ≠ i := by
        rintro rfl
        exact hk1.live j hj hfree
      rw [(hr3.kept i (.inr rfl)).2, (hr3.kept j (.inl hj)).2, Fs.epoch_alloc_of_ne hji]
      exact Fs.epoch_lt_alloc j
    · refine ⟨c, ?_, ?_⟩
      · beta_reduce
        rw [if_neg hfree]
        exact hk1.still ⟨fun _ => rfl, fun _ => rfl, rfl⟩ rfl (fun _ _ => ⟨rfl, rfl⟩) rfl
      · simp only [hfree, ↓reduceIte]
        exact ih fun i s' hr => hQ i s' (hr1.trans hr)

end

section
variable {Q : Int → Claims → List ℕ → Fs P → Prop} {sb : Super} {dp inum : ℕ} {name : Name}

theorem keeps_dirlink (hdp : 0 < c.held dp) (hH : dp ∈ H) (hinum : 0 < c.held inum)
    (hnew : ∀ s', Rely p c H s s' → Knows depth c s' →
      name = dot ∨ name = dotdot ∨ s'.Below depth dp inum)
    (hfound : ∀ n s', Rely p c H s s' → Knows depth c s' → (s'.inode dp).type = .dir →
      s'.slot dp name = some n → InOrder depth H (s'.entry dp n).inum s')
    (hneg : ∀ s', Rely p c H s s' → Knows depth c s' → Q (-1) c H s')
    (hzero : ∀ s1 s', Rely p c H s s1 → Knows depth c s1 → s1.slot dp name = none →
      Rely p c.known H (s1.writeEntry dp (s1.spare dp) ⟨inum, name⟩) s' →
      Knows depth c.known s' → Q 0 c.known H s') :
    Keeps depth p Q (dirlink sb dp name inum) last c H s := by
  refine keeps_bind (keeps_dirlookup hdp hH (fun s1 hr1 hk1 hdir hslot last => ?_)
    fun n s1 hr1 hk1 hdir hslot last => ?_)
  · -- The directory is locked, so the name is still missing when it is entered.
    have hslot' : ∀ {s'}, Rely p c H s1 s' → s'.slot dp name = none := fun hr =>
      (Fs.slot_congr (hr.entries dp (.inl ⟨hdp, hH⟩)) name).trans hslot
    refine keeps_act c.known (fun s' hr hk _ => hk.writeEntry hdp hH fun _ =>
      ⟨hinum, hnew s' (hr1.trans hr) hk⟩) fun s2 hr2 hk2 => ?_
    have hmay : ∀ e, s2.noRoom sb dp (s2.spare dp) ⟨inum, name⟩ = some e → e ≠ .dirWrite := by
      intro e he
      unfold Fs.noRoom at he
      split at he
      · cases he
        decide
      · split at he
        · cases he
          decide
        · cases he
    split
    · rename_i e he
      exact keeps_panic (hmay e he)
    · exact keeps_pure fun s3 hr3 hk3 => hzero s2 s3 (hr1.trans hr2) hk2 (hslot' hr2) hr3 hk3
  · have hfresh : c.fresh ≠ some (s1.entry dp n).inum := fun hf => by
      obtain ⟨hmem, hz, -⟩ := Fs.slot_eq_some hslot
      exact (hk1.fresh _ hf).named ⟨dp, hdir, _, hmem, hz, rfl⟩
    refine keeps_bind (keeps_iput (fun s2 hr2 hk2 => ?_) hfresh fun s2 hr2 hk2 last =>
      keeps_pure fun s3 hr3 hk3 => hneg s3 (hr1.trans (hr2.trans hr3)) hk3)
    have hr2 := hr2.of_take
    have he := hr2.entries dp (.inl ⟨hdp, hH⟩)
    rw [← Fs.entry_congr he]
    exact hfound n s2 (hr1.trans hr2) hk2.of_take ((hr2.kept dp (.inl hdp)).1.trans hdir)
      ((Fs.slot_congr he name).trans hslot)

end

section
variable {Q : Option (ℕ × Name) → Claims → List ℕ → Fs P → Prop} {sb : Super}

theorem keeps_namexLoop {par : Bool} (hfresh : c.fresh = none) {names : List Name} {ip : ℕ}
    (hnone : ∀ s', Rely p c [] s s' → Knows depth c s' → Q none c [] s')
    (hsome : ∀ i name s', Rely p c [] s s' → Knows depth (c.take i) s' →
      (par = true → (s'.inode i).type = .dir ∧ names.getLast? = some name) →
      Q (some (i, name)) (c.take i) [] s') :
    Keeps depth p Q (namexLoop sb par ip names) last (c.take ip) [] s := by
  induction names generalizing ip last s with
  | nil =>
    unfold namexLoop
    split
    · exact keeps_bind (keeps_iput_last hfresh fun s1 hr1 _ last =>
        keeps_pure fun s2 hr2 hk2 => hnone s2 (hr1.trans hr2) hk2)
    · rename_i hpar
      exact keeps_pure fun s1 hr1 hk1 =>
        hsome ip [] s1 hr1.of_take hk1 fun h => absurd h hpar
  | cons name rest ih =>
    unfold namexLoop
    refine keeps_bind (keeps_ilock_first fun _ s1 hr1 _ last => keeps_read fun s2 hr2 _ => ?_)
    have hr2 : Rely p c [] s s2 := hr1.of_take.trans hr2.of_take.of_cons
    have hfail : ∀ {s3 last}, Rely p c [] s s3 →
        Keeps depth p Q (iunlockput .iput ip >>= fun _ => pure none) last (c.take ip) [ip] s3 :=
      fun hr3 => keeps_bind (keeps_iunlockput_last hfresh fun s4 hr4 _ last =>
        keeps_pure fun s5 hr5 hk5 => hnone s5 (hr3.trans (hr4.trans hr5)) hk5)
    split
    · exact hfail hr2
    rename_i hdir
    rw [not_not] at hdir
    split
    · rename_i hlast
      refine keeps_bind (keeps_iunlock_last fun s3 hr3 _ last => keeps_pure fun s4 hr4 hk4 => ?_)
      have hr4 := hr3.trans hr4
      refine hsome ip name s4 (hr2.trans hr4.of_take) hk4 fun _ => ⟨?_, ?_⟩
      · exact (hr4.kept ip (.inl (by simp))).1.trans hdir
      · simp only [Bool.and_eq_true, List.isEmpty_iff] at hlast
        simp [hlast.2]
    · refine keeps_bind (keeps_dirlookup (by simp) (List.mem_singleton_self ip)
        (fun s3 hr3 _ _ _ last => hfail (hr2.trans hr3.of_take.of_cons))
        fun n s3 hr3 hk3 _ _ last => ?_)
      have hr3 := hr2.trans hr3.of_take.of_cons
      rw [Claims.take_comm]
      refine keeps_bind (keeps_iunlockput_last hfresh fun s4 hr4 _ last => ?_)
      have hr4 := hr3.trans hr4.of_take
      refine ih (fun s' hr => hnone s' (hr4.trans hr)) fun i name' s' hr hk hpar =>
        hsome i name' s' (hr4.trans hr) hk fun h => ⟨(hpar h).1, ?_⟩
      have hl := (hpar h).2
      cases rest with
      | nil => cases hl
      | cons a as => simpa using hl

variable {path : Path}

theorem keeps_namex {par : Bool} (hfresh : c.fresh = none) (hcwd : 0 < c.held (s.cwd p))
    (hnone : ∀ s', Rely p c [] s s' → Knows depth c s' → Q none c [] s')
    (hsome : ∀ i name s', Rely p c [] s s' → Knows depth (c.take i) s' →
      (par = true → (s'.inode i).type = .dir ∧ (elems path).getLast? = some name) →
      Q (some (i, name)) (c.take i) [] s') :
    Keeps depth p Q (namex sb p path par) last c [] s := by
  unfold namex
  split
  · refine keeps_bind (keeps_iget (fun _ _ _ => .inr (.inr (.inl rfl))) fun s1 hr1 _ last => ?_)
    exact keeps_namexLoop hfresh (fun s' hr => hnone s' (hr1.trans hr))
      fun i name s' hr => hsome i name s' (hr1.trans hr)
  refine keeps_read fun s1 hr1 _ => keeps_bind (keeps_idup (by rwa [hr1.cwd])
    fun s2 hr2 _ last => ?_)
  have hr2 := hr1.trans hr2
  exact keeps_namexLoop hfresh (fun s' hr => hnone s' (hr2.trans hr))
    fun i name s' hr => hsome i name s' (hr2.trans hr)

end

theorem keeps_namei {Q : Option ℕ → Claims → List ℕ → Fs P → Prop} {sb : Super} {path : Path}
    (hfresh : c.fresh = none) (hcwd : 0 < c.held (s.cwd p))
    (hnone : ∀ s', Rely p c [] s s' → Knows depth c s' → Q none c [] s')
    (hsome : ∀ i s', Rely p c [] s s' → Knows depth (c.take i) s' → Q (some i) (c.take i) [] s') :
    Keeps depth p Q (namei sb p path) last c [] s :=
  keeps_bind (keeps_namex hfresh hcwd
    (fun _ hr1 _ _ => keeps_pure fun s2 hr2 => hnone s2 (hr1.trans hr2))
    fun i _ _ hr1 _ _ _ => keeps_pure fun s2 hr2 => hsome i s2 (hr1.trans hr2.of_take))

end Xv6.Sys
