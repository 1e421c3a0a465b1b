import Xv6.Cons.Input

namespace Xv6.Cons

open Lib Function
open List (append_assoc append_nil length_append)

structure Line where
  ready : List UInt8
  edit : List UInt8
  cap : ready.length + edit.length ≤ INPUT_BUF
  full : ready.length + edit.length = INPUT_BUF → edit = []
  clean : nl ∉ edit

namespace Line

def nil : Line := ⟨[], [], by decide, fun _ => rfl, by simp⟩

def backspace (l : Line) : Line where
  ready := l.ready
  edit := l.edit.dropLast
  cap := by
    have := l.cap
    rw [List.length_dropLast]
    omega
  full h := by
    have := l.cap
    rw [List.length_dropLast] at h
    have hnil : l.edit = [] := List.eq_nil_of_length_eq_zero (by omega)
    rw [hnil]
    rfl
  clean h := l.clean (List.dropLast_subset _ h)

def kill (l : Line) : Line where
  ready := l.ready
  edit := []
  cap := (Nat.le_add_right _ _).trans l.cap
  full _ := rfl
  clean := List.not_mem_nil

def insert (l : Line) (c : UInt8) (h : l.ready.length + l.edit.length < INPUT_BUF) : Line :=
  if hc : c = nl ∨ c = C 'D' ∨ l.ready.length + l.edit.length + 1 = INPUT_BUF then
    { ready := l.ready ++ (l.edit ++ [c])
      edit := []
      cap := by
        simp only [List.length_append, List.length_cons, List.length_nil]
        omega
      full := fun _ => rfl
      clean := List.not_mem_nil }
  else
    { ready := l.ready
      edit := l.edit ++ [c]
      cap := by
        simp only [List.length_append, List.length_cons, List.length_nil]
        omega
      full := fun h => by
        simp only [List.length_append, List.length_cons, List.length_nil] at h
        exact absurd (.inr (.inr (by omega))) hc
      clean := by
        rw [List.mem_append, List.mem_singleton]
        rintro (he | he)
        · exact l.clean he
        · exact hc (.inl he.symm) }

def key (l : Line) (c : UInt8) : Line :=
  if c = C 'P' then l
  else if c = C 'U' then l.kill
  else if c = C 'H' ∨ c = 0x7f then l.backspace
  else if h : c ≠ 0 ∧ l.ready.length + l.edit.length < INPUT_BUF then
    l.insert (if c = cr then nl else c) h.2
  else l

def take (l : Line) (k : ℕ) : Line where
  ready := l.ready.drop k
  edit := l.edit
  cap := by
    have := l.cap
    rw [List.length_drop]
    omega
  full h := by
    have := l.cap
    rw [List.length_drop] at h
    exact l.full (by omega)
  clean := l.clean

theorem ready_key (l : Line) (c : UInt8) : l.ready <+: (l.key c).ready := by
  unfold key insert
  split_ifs
  all_goals first | exact List.prefix_refl _ | exact List.prefix_append _ _

theorem ready_keys (l : Line) (cs : List UInt8) : l.ready <+: (cs.foldl key l).ready := by
  induction cs generalizing l with
  | nil => exact List.prefix_refl _
  | cons c cs ih => exact (l.ready_key c).trans (ih (l.key c))

end Line

namespace Input

variable {s s' : Input} {l l' : Line}

structure Shows (s : Input) (l : Line) : Prop where
  ready : (s.w - s.r).toNat = l.ready.length
  all : s.between s.r s.e = l.ready ++ l.edit

@[simp] theorem length_between (s : Input) (i j : UInt32) :
    (s.between i j).length = (j - i).toNat := Lib.Ring.length_contents

namespace Shows

theorem length (h : s.Shows l) : (s.e - s.r).toNat = l.ready.length + l.edit.length := by
  rw [← length_between, h.all, length_append]

theorem between_ready (h : s.Shows l) : s.between s.r s.w = l.ready := by
  have htake := Lib.Ring.contents_take (r := ⟨s.buf, s.r, s.e⟩) (q := ⟨s.buf, s.r, s.w⟩) rfl rfl (by
    show (s.w - s.r).toNat ≤ (s.e - s.r).toNat
    rw [h.length, h.ready]
    omega)
  rw [between, htake]
  show (s.between s.r s.e).take (s.w - s.r).toNat = l.ready
  rw [h.all, h.ready, List.take_left]

theorem eq_iff (i j r : UInt32) : i = j ↔ (i - r).toNat = (j - r).toNat := by
  rw [UInt32.toNat_inj, UInt32.sub_left_inj]

variable (h : s.Shows l)
include h

theorem e_eq_w : s.e = s.w ↔ l.edit = [] := by
  rw [eq_iff s.e s.w s.r, h.length, h.ready, ← List.length_eq_zero_iff]
  omega

theorem r_eq_w : s.r = s.w ↔ l.ready = [] := by
  rw [eq_iff s.r s.w s.r, h.ready, ← List.length_eq_zero_iff, UInt32.sub_self]
  exact eq_comm

theorem lt_iff :
    s.e - s.r < UInt32.ofNat INPUT_BUF ↔ l.ready.length + l.edit.length < INPUT_BUF := by
  rw [UInt32.lt_iff_toNat_lt, h.length]
  rfl

theorem back (hne : s.e ≠ s.w) :
    s.between s.r (s.e - 1) = l.ready ++ l.edit.dropLast ∧ s.get (s.e - 1) ∈ l.edit := by
  have hedit : l.edit ≠ [] := fun hnil => hne (h.e_eq_w.2 hnil)
  have hpos := List.length_pos_iff.2 hedit
  have hback := Lib.Ring.contents_unput (r := ⟨s.buf, s.r, s.e⟩) (by
    show 0 < (s.e - s.r).toNat
    rw [h.length]
    omega)
  change s.between s.r s.e = s.between s.r (s.e - 1) ++ [s.get (s.e - 1)] at hback
  rw [h.all, ← List.dropLast_append_getLast hedit, ← append_assoc] at hback
  obtain ⟨hinit, hlast⟩ := List.append_inj' hback rfl
  refine ⟨hinit.symm, ?_⟩
  obtain hlast := List.head_eq_of_cons_eq hlast
  rw [← hlast]
  exact List.getLast_mem hedit

theorem backspace (hne : s.e ≠ s.w) : Shows { s with e := s.e - 1 } l.backspace :=
  ⟨h.ready, (h.back hne).1⟩

theorem killLine : s.killLine.Shows l.kill := by
  generalize hk : l.edit.length = k
  induction k generalizing s l with
  | zero =>
    have hnil := List.eq_nil_of_length_eq_zero hk
    have heq : s.killLine = s := by
      rw [Input.killLine, if_neg]
      exact fun hc => hc.1 (h.e_eq_w.2 hnil)
    rw [heq]
    exact ⟨h.ready, by rw [h.all, hnil]; rfl⟩
  | succ k ih =>
    have hne : s.e ≠ s.w := fun he => by simp [h.e_eq_w.1 he] at hk
    have hget : s.get (s.e - 1) ≠ nl := fun hnl => l.clean (hnl ▸ (h.back hne).2)
    rw [Input.killLine, if_pos ⟨hne, hget⟩]
    exact ih (l := l.backspace) (h.backspace hne) (by simp [Line.backspace, hk])

theorem insert (c : UInt8) (hlt : l.ready.length + l.edit.length < INPUT_BUF) :
    Shows (let s := { s with buf := update s.buf (Lib.Ring.index s.e) c, e := s.e + 1 }
      if c = nl ∨ c = C 'D' ∨ s.e = s.r + UInt32.ofNat INPUT_BUF then { s with w := s.e } else s)
      (l.insert c hlt) := by
  have hput := Lib.Ring.contents_put (r := ⟨s.buf, s.r, s.e⟩) (by decide) (by decide) (by
    show (s.e - s.r).toNat < INPUT_BUF
    rwa [h.length]) c
  have hused := Lib.Ring.used_put (r := ⟨s.buf, s.r, s.e⟩) (by
    show (s.e - s.r).toNat + 1 < 2 ^ 32
    rw [h.length]
    exact lt_of_le_of_lt hlt (by decide)) c
  change Input.between ⟨update s.buf (Lib.Ring.index s.e) c, s.r, s.w, s.e + 1⟩ s.r
    (s.e + 1) = s.between s.r s.e ++ [c] at hput
  change (s.e + 1 - s.r).toNat = (s.e - s.r).toNat + 1 at hused
  rw [h.length] at hused
  rw [h.all, append_assoc] at hput
  have hfull : s.e + 1 = s.r + UInt32.ofNat INPUT_BUF ↔
      l.ready.length + l.edit.length + 1 = INPUT_BUF := by
    rw [eq_iff _ _ s.r, hused, UInt32.add_comm s.r, UInt32.add_sub_cancel]
    rfl
  dsimp only
  simp only [hfull]
  unfold Line.insert
  split
  · refine ⟨?_, ?_⟩
    · show (s.e + 1 - s.r).toNat = _
      rw [hused]
      simp
      omega
    · show Input.between _ s.r (s.e + 1) = _
      rw [append_nil]
      exact hput
  · exact ⟨h.ready, hput⟩

theorem intr (c : UInt8) : (s.intr c).Shows (l.key c) := by
  unfold Input.intr Line.key
  by_cases hp : c = C 'P'
  · rwa [if_pos hp, if_pos hp]
  rw [if_neg hp, if_neg hp]
  by_cases hu : c = C 'U'
  · rw [if_pos hu, if_pos hu]
    exact h.killLine
  rw [if_neg hu, if_neg hu]
  by_cases hh : c = C 'H' ∨ c = 0x7f
  · rw [if_pos hh, if_pos hh]
    by_cases hew : s.e = s.w
    · rw [if_neg (not_not_intro hew)]
      refine ⟨h.ready, ?_⟩
      show s.between s.r s.e = l.ready ++ l.edit.dropLast
      rw [h.all, h.e_eq_w.1 hew]
      rfl
    · rw [if_pos hew]
      exact h.backspace hew
  rw [if_neg hh, if_neg hh]
  by_cases hc : c ≠ 0 ∧ l.ready.length + l.edit.length < INPUT_BUF
  · rw [if_pos ⟨hc.1, h.lt_iff.2 hc.2⟩, dif_pos hc]
    exact h.insert _ hc.2
  · rwa [if_neg fun hc' => hc ⟨hc'.1, h.lt_iff.1 hc'.2⟩, dif_neg hc]

end Shows

@[simp] theorem killLine_r (s : Input) : s.killLine.r = s.r := by
  fun_induction killLine s with
  | case1 s _ ih => exact ih
  | case2 => rfl

@[simp] theorem intr_r (s : Input) (c : UInt8) : (s.intr c).r = s.r := by
  unfold intr
  split_ifs
  all_goals first | rfl | exact killLine_r s | (dsimp only; split <;> rfl)

theorem Shows.between_w (h : s.Shows l) (h' : s'.Shows l') (hr : s'.r = s.r)
    (hpre : l.ready <+: l'.ready) : l'.ready = l.ready ++ s'.between s.w s'.w := by
  obtain ⟨x, hx⟩ := hpre
  have hw : s.w = s.r + UInt32.ofNat l.ready.length := by
    rw [← h.ready, UInt32.ofNat_toNat, UInt32.add_comm, UInt32.sub_add_cancel]
  have hdrop := Lib.Ring.contents_drop (r := ⟨s'.buf, s'.r, s'.w⟩) (k := l.ready.length) (by
    show _ ≤ (s'.w - s'.r).toNat
    rw [h'.ready, ← hx, length_append]
    omega)
  dsimp only at hdrop
  rw [hr, ← hw] at hdrop
  rw [between, hdrop, ← hr]
  show _ = l.ready ++ (s'.between s'.r s'.w).drop l.ready.length
  rw [h'.between_ready, ← hx, List.drop_left]

theorem Shows.between_r {x : List UInt8} (h : s.Shows l) (h' : s'.Shows l') (hb : s'.buf = s.buf)
    (hw : s'.w = s.w) (hx : l.ready = x ++ l'.ready) : s'.between s.r s'.r = x := by
  have hr : (s'.r - s.r).toNat = x.length := by
    have hl := h.ready
    have hl' := h'.ready
    have hcap := l.cap
    rw [hx, length_append] at hl hcap
    rw [hw] at hl'
    have hlt := s.w.toNat_lt
    have hlt' := s'.r.toNat_lt
    rw [UInt32.toNat_sub] at hl hl' ⊢
    simp only [INPUT_BUF] at hcap
    omega
  have hle : (s'.r - s.r).toNat ≤ (s.w - s.r).toNat := by
    rw [h.ready, hr, hx, length_append]
    omega
  have htake := Lib.Ring.contents_take (r := ⟨s.buf, s.r, s.w⟩) (q := ⟨s'.buf, s.r, s'.r⟩) hb rfl
    hle
  rw [between, htake]
  show (s.between s.r s.w).take (s'.r - s.r).toNat = x
  rw [h.between_ready, hr, hx, List.take_left]

end Input

inductive Ends (target : ℕ) (dst took rest dst' : List UInt8) : Stop → Prop
  | full (he : dst' = dst ++ took) (hd : C 'D' ∉ took) (hlen : dst'.length = target) :
      Ends target dst took rest dst' .ret
  | line (x : List UInt8) (he : dst' = dst ++ took) (hd : C 'D' ∉ took) (hx : took = x ++ [nl]) :
      Ends target dst took rest dst' .ret
  | eof (he : dst' = []) (hdst : dst = []) (ht : took = [C 'D']) :
      Ends target dst took rest dst' .ret
  | kept (x : List UInt8) (he : dst' = dst ++ took) (hd : C 'D' ∉ took) (hne : dst' ≠ [])
      (hrest : rest = C 'D' :: x) : Ends target dst took rest dst' .ret
  | killed (he : dst' = dst ++ took) (hd : C 'D' ∉ took) (hrest : rest = []) :
      Ends target dst took rest dst' .killed
  | sleep (n : ℕ) (he : dst' = dst ++ took) (hd : C 'D' ∉ took) (hrest : rest = [])
      (hn : dst'.length + n = target) : Ends target dst took rest dst' (.sleep n)

theorem Ends.cons {target : ℕ} {dst took rest dst' : List UInt8} {stop : Stop} {c : UInt8}
    (h : Ends target (dst ++ [c]) took rest dst' stop) (hc : c ≠ C 'D') :
    Ends target dst (c :: took) rest dst' stop := by
  have hnot : C 'D' ∉ took → C 'D' ∉ c :: took := fun hd hmem =>
    (List.mem_cons.1 hmem).elim (fun he => hc he.symm) hd
  have happ : dst ++ [c] ++ took = dst ++ c :: took := by simp
  cases h with
  | full he hd hlen => exact .full (he.trans happ) (hnot hd) hlen
  | line x he hd hx => exact .line (c :: x) (he.trans happ) (hnot hd) (by rw [hx]; rfl)
  | eof he hdst => simp at hdst
  | kept x he hd hne hrest => exact .kept x (he.trans happ) (hnot hd) hne hrest
  | killed he hd hrest => exact .killed (he.trans happ) (hnot hd) hrest
  | sleep n he hd hrest hn => exact .sleep n (he.trans happ) (hnot hd) hrest hn

theorem Ends.asleep {target target' n : ℕ} {dst took rest dst' dst'' : List UInt8} {stop : Stop}
    (h : Ends target dst took rest dst' stop)
    (hs : stop.reader target dst' = .asleep target' n dst'') : dst''.length + n = target' := by
  cases h with
  | sleep m _ _ _ hm =>
    cases hs
    exact hm
  | _ => cases hs

namespace Input

variable {s : Input} {l : Line}

theorem Shows.pop (h : s.Shows l) (hne : s.r ≠ s.w) :
    l.ready = s.get s.r :: (l.take 1).ready ∧ Shows { s with r := s.r + 1 } (l.take 1) := by
  have hpos : 0 < l.ready.length :=
    List.length_pos_iff.2 fun hnil => hne (h.r_eq_w.2 hnil)
  have hall := Lib.Ring.contents_pop (r := ⟨s.buf, s.r, s.e⟩) (by
    show 0 < (s.e - s.r).toNat
    rw [h.length]
    omega)
  have hw := Lib.Ring.used_pop (r := ⟨s.buf, s.r, s.w⟩) (by
    show 0 < (s.w - s.r).toNat
    rwa [h.ready])
  change s.between s.r s.e = s.get s.r :: Input.between { s with r := s.r + 1 } (s.r + 1) s.e
    at hall
  change (s.w - (s.r + 1)).toNat = (s.w - s.r).toNat - 1 at hw
  obtain ⟨c, a, hca⟩ := List.exists_cons_of_length_pos hpos
  rw [h.all, hca, List.cons_append] at hall
  obtain ⟨hc, ha⟩ := List.cons_eq_cons.1 hall
  have htake : (l.take 1).ready = a := by simp [Line.take, hca]
  refine ⟨by rw [htake, ← hc, hca], ⟨?_, ?_⟩⟩
  · rw [htake]
    show (s.w - (s.r + 1)).toNat = _
    rw [hw, h.ready, hca]
    rfl
  · rw [htake]
    exact ha.symm

theorem Shows.read (killed : Bool) {target n : ℕ} {dst : List UInt8} (h : s.Shows l)
    (hn : dst.length + n = target) :
    ∃ took l', l.ready = took ++ l'.ready ∧ (s.read killed target n dst).1.Shows l' ∧
      (s.read killed target n dst).1.buf = s.buf ∧ (s.read killed target n dst).1.w = s.w ∧
      Ends target dst took l'.ready (s.read killed target n dst).2.1
        (s.read killed target n dst).2.2 := by
  have hnone : C 'D' ∉ ([] : List UInt8) := List.not_mem_nil
  have happ : dst = dst ++ [] := (append_nil dst).symm
  induction n generalizing s l dst with
  | zero => exact ⟨[], l, rfl, h, rfl, rfl, .full happ hnone hn⟩
  | succ n ih =>
    unfold Input.read
    by_cases hrw : s.r = s.w
    · have hrest := h.r_eq_w.1 hrw
      rw [if_pos hrw]
      refine ⟨[], l, rfl, h, rfl, rfl, ?_⟩
      cases killed with
      | true => exact .killed happ hnone hrest
      | false => exact .sleep (n + 1) happ hnone hrest hn
    obtain ⟨hready, hpop⟩ := h.pop hrw
    rw [if_neg hrw]
    dsimp only
    generalize s.get s.r = c at hready
    by_cases hd : c = C 'D'
    · rw [if_pos hd]
      by_cases hlt : n + 1 < target
      · -- There are bytes already, and `r` goes back.
        have hback : s.r + 1 - 1 = s.r := UInt32.add_sub_cancel _ _
        rw [if_pos hlt, hback]
        have hne : dst ≠ [] := by
          rintro rfl
          simp at hn
          omega
        exact ⟨[], l, rfl, h, rfl, rfl, .kept _ happ hnone hne (by rw [hready, hd])⟩
      · have hnil : dst = [] := List.eq_nil_of_length_eq_zero (by omega)
        rw [if_neg hlt]
        exact ⟨[c], l.take 1, hready, hpop, rfl, rfl, .eof hnil hnil (by rw [hd])⟩
    rw [if_neg hd]
    by_cases hl : c = nl
    · rw [if_pos hl]
      refine ⟨[c], l.take 1, hready, hpop, rfl, rfl, .line [] rfl ?_ (by rw [hl]; rfl)⟩
      rw [List.mem_singleton]
      exact fun he => hd he.symm
    rw [if_neg hl]
    have hlen : (dst ++ [c]).length + n = target := by
      rw [length_append, List.length_singleton]
      omega
    obtain ⟨took, l', htook, hshows, hbuf, hw, hends⟩ :=
      ih hpop hlen (append_nil _).symm
    exact ⟨c :: took, l', by rw [hready, htook]; rfl, hshows, hbuf, hw, hends.cons hd⟩

end Input

namespace Console

variable {P : Type} {s s' : Console P}

structure Inv (s : Console P) (l : Line) : Prop where
  shows : s.input.Shows l
  log : s.committed = s.consumed.map Prod.snd ++ l.ready
  asleep : ∀ p target n dst, s.reader p = .asleep target n dst → dst.length + n = target

variable {l : Line}

theorem Inv.pending (h : s.Inv l) : s.pending = l.ready := h.shows.between_ready

theorem Inv.intr (h : s.Inv l) (c : UInt8) : (s.intr c).Inv (l.key c) where
  shows := h.shows.intr c
  log := by
    have hw := h.shows.between_w (h.shows.intr c) (s.input.intr_r c) (l.ready_key c)
    show s.committed ++ _ = s.consumed.map Prod.snd ++ (l.key c).ready
    rw [hw, ← append_assoc, ← h.log]
  asleep := h.asleep

theorem Inv.intrs (h : s.Inv l) (cs : List UInt8) :
    (cs.foldl Console.intr s).Inv (cs.foldl Line.key l) := by
  induction cs generalizing s l with
  | nil => exact h
  | cons c cs ih => exact ih (h.intr c)

theorem intrs_r (s : Console P) (cs : List UInt8) : (cs.foldl intr s).input.r = s.input.r := by
  induction cs generalizing s with
  | nil => rfl
  | cons c cs ih => exact (ih (s.intr c)).trans (s.input.intr_r c)

theorem intrs_readers (s : Console P) (cs : List UInt8) :
    (cs.foldl intr s).consumed = s.consumed ∧ (cs.foldl intr s).reader = s.reader := by
  induction cs generalizing s with
  | nil => exact ⟨rfl, rfl⟩
  | cons c cs ih => exact ih (s.intr c)

variable [DecidableEq P]

def Reads (s s' : Console P) (p : P) (target : ℕ) (dst : List UInt8) : Prop :=
  ∃ took dst' stop, s.pending = took ++ s'.pending ∧
    s'.consumed = s.consumed ++ took.map (p, ·) ∧
    Ends target dst took s'.pending dst' stop ∧ s'.reader p = stop.reader target dst'

theorem Inv.read {p : P} {killed : Bool} {target n : ℕ} {dst : List UInt8}
    (h : s.Inv l) (hn : dst.length + n = target) :
    (∃ l', (s.read p killed target n dst).Inv l') ∧
      s.Reads (s.read p killed target n dst) p target dst := by
  obtain ⟨took, l', hready, hshows, hbuf, hw, hends⟩ := h.shows.read killed hn
  have htook := h.shows.between_r hshows hbuf hw hready
  have hconsumed : (s.read p killed target n dst).consumed = s.consumed ++ took.map (p, ·) := by
    rw [← htook]
    rfl
  have hinv : (s.read p killed target n dst).Inv l' := by
    refine ⟨hshows, ?_, fun q target' n' dst' hq => ?_⟩
    · show s.committed = _
      rw [hconsumed, h.log, hready]
      simp
    by_cases hqp : q = p
    · subst hqp
      have hself : (s.read q killed target n dst).reader q = _ := update_self ..
      rw [hself] at hq
      exact hends.asleep hq
    · have hof : (s.read p killed target n dst).reader q = _ := update_of_ne hqp ..
      rw [hof] at hq
      exact h.asleep q target' n' dst' hq
  refine ⟨⟨l', hinv⟩, took, _, _, ?_, hconsumed, ?_, update_self ..⟩
  · rw [h.pending, hinv.pending, hready]
  · rw [hinv.pending]
    exact hends

def Disciplined (s : Console P) (a : Act P) (s' : Console P) : Prop :=
  match a with
  | .intr _ => s.pending <+: s'.pending ∧ s'.input.r = s.input.r ∧ s'.consumed = s.consumed ∧
      s'.reader = s.reader
  | .read p n _ => s'.committed = s.committed ∧ s.Reads s' p n.toNat []
  | .resume p _ => s'.committed = s.committed ∧
      ∃ target n dst, s.reader p = .asleep target n dst ∧ s.Reads s' p target dst

theorem Inv.step {a : Act P} (h : s.Inv l) (hs : s.step a = some s') :
    (∃ l', s'.Inv l') ∧ s.Disciplined a s' := by
  cases a with
  | intr cs =>
    cases hs
    have hinv := h.intrs cs
    refine ⟨⟨_, hinv⟩, ?_, s.intrs_r cs, s.intrs_readers cs⟩
    rw [h.pending, hinv.pending]
    exact l.ready_keys cs
  | read p n killed =>
    simp only [Console.step] at hs
    split at hs
    · cases hs
      have hlen : ([] : List UInt8).length + n.toNat = n.toNat := Nat.zero_add _
      obtain ⟨hinv, hreads⟩ := h.read hlen
      exact ⟨hinv, rfl, hreads⟩
    · cases hs
  | resume p killed =>
    simp only [Console.step] at hs
    split at hs
    · cases hs
    · rename_i target n dst hp
      cases hs
      obtain ⟨hinv, hreads⟩ := h.read (h.asleep p target n dst hp)
      exact ⟨hinv, rfl, target, n, dst, hp, hreads⟩

end Console

theorem inv_boot (P : Type) : (boot P).Inv .nil where
  shows := by
    have hzero : ((0 : UInt32) - 0).toNat = 0 := by decide
    exact ⟨hzero, List.eq_nil_of_length_eq_zero ((Input.length_between ..).trans hzero)⟩
  log := rfl
  asleep p target n dst h := by cases h

theorem console_discipline {P : Type} [DecidableEq P] (tr : List (Act P)) :
    EveryState Console.step (boot P) (fun s =>
      (s.input.w - s.input.r).toNat ≤ (s.input.e - s.input.r).toNat ∧
      (s.input.e - s.input.r).toNat ≤ INPUT_BUF ∧
      ((s.input.e - s.input.r).toNat = INPUT_BUF → s.input.w = s.input.e) ∧
      s.committed = s.consumed.map Prod.snd ++ s.pending) tr ∧
    EveryStep Console.step (boot P) (fun s a =>
      ∀ s', s.step a = some s' → s.Disciplined a s') tr := by
  have hinv : ∀ {tr'} {s : Console P}, exec Console.step (boot P) tr' = some s → ∃ l, s.Inv l :=
    exec_invariant (fun s : Console P => ∃ l, s.Inv l) ⟨_, inv_boot P⟩
      fun t a u ⟨l, h⟩ hs => (h.step hs).1
  refine ⟨fun tr' s _ hrun => ?_, fun tr' a s _ hrun s' hs => ?_⟩
  · obtain ⟨l, h⟩ := hinv hrun
    have hlen := h.shows.length
    refine ⟨?_, ?_, fun hfull => ?_, ?_⟩
    · rw [h.shows.ready, hlen]
      exact Nat.le_add_right _ _
    · rw [hlen]
      exact l.cap
    · rw [hlen] at hfull
      exact (h.shows.e_eq_w.2 (l.full hfull)).symm
    · rw [h.pending, h.log]
  · obtain ⟨l, h⟩ := hinv hrun
    exact (h.step hs).2

end Xv6.Cons
