import Xv6.Inodes.Machine

namespace Xv6.Inodes

open Lib Function

def Pc.Holds : Pc → Prop
  | .loading | .locked | .dirty | .putLocked | .putTrunc | .putType | .putInvalid
  | .putUnlock => True
  | .out | .locking | .putting | .putDrop => False

def Entry.Copy (e : Entry) (d : Dinode) : Prop := e.di = d ∧ d.type ≠ 0

def Pc.Knows (e : Entry) (d : Dinode) : Pc → Prop
  | .locked | .putTrunc | .putType => e.valid = true ∧ e.Copy d
  | .dirty => e.valid = true ∧ e.di.type ≠ 0 ∧ d.type ≠ 0
  | .loading => e.valid = false
  | .putLocked | .putUnlock => e.valid = true → e.Copy d
  | _ => True

variable {P : Type} {s s' : Icache P} {p q : P} {i j : Slot}

theorem setDinode_of_ne {dev inum d n : ℕ} {x : Dinode} (h : ¬(d = dev ∧ n = inum)) :
    (s.setDinode dev inum x).dinode d n = s.dinode d n := by
  by_cases hd : d = dev
  · subst hd
    have hn : n ≠ inum := fun he => h ⟨rfl, he⟩
    simp [Icache.setDinode, hn]
  · simp [Icache.setDinode, hd]

theorem setEntry_self {e : Entry} : (s.setEntry i e).entry i = e := update_self ..

theorem disk_iupdate : (s.iupdate i).disk i = (s.entry i).di := by
  simp [Icache.disk, Icache.iupdate, Icache.setDinode]

structure Coherent (s : Icache P) : Prop where
  unique : ∀ i j, 0 < (s.entry i).ref → 0 < (s.entry j).ref →
    (s.entry i).dev = (s.entry j).dev → (s.entry i).inum = (s.entry j).inum → i = j
  counted : ∀ i, (s.entry i).ref = (s.refs.filter fun r => r.2 = i).card
  lock : ∀ p i, (s.pc p i).Holds ↔ s.lock i = some p
  live : ∀ p i, s.pc p i ≠ .out → (p, i) ∈ s.refs
  unlocked : ∀ i, 0 < (s.entry i).ref → s.lock i = none → (s.entry i).valid = true →
    (s.entry i).Copy (s.disk i)
  locked : ∀ p i, (s.pc p i).Holds → (s.pc p i).Knows (s.entry i) (s.disk i)

namespace Coherent

section
variable (h : Coherent s)
include h

theorem ref_pos (hr : (p, i) ∈ s.refs) : 0 < (s.entry i).ref := by
  rw [h.counted i]
  exact Multiset.card_pos_iff_exists_mem.2 ⟨(p, i), Multiset.mem_filter.2 ⟨hr, rfl⟩⟩

theorem pos_of_pc (hpc : s.pc p i ≠ .out) : 0 < (s.entry i).ref :=
  h.ref_pos (h.live p i hpc)

theorem touch (hr : (p, i) ∈ s.refs) (hrefs : s'.refs = s.refs)
    (hentry : ∀ j, j ≠ i → s'.entry j = s.entry j)
    (hi : (s'.entry i).dev = (s.entry i).dev ∧ (s'.entry i).inum = (s.entry i).inum ∧
      (s'.entry i).ref = (s.entry i).ref)
    (hdisk : ∀ d n, ¬(d = (s.entry i).dev ∧ n = (s.entry i).inum) → s'.dinode d n = s.dinode d n)
    (hlock : ∀ j, j ≠ i → s'.lock j = s.lock j)
    (hpc : ∀ q j, ¬(q = p ∧ j = i) → s'.pc q j = s.pc q j)
    (hmine : s.lock i = none ∨ s.lock i = some p)
    (hlock' : s'.lock i = none ∧ ¬ (s'.pc p i).Holds ∨ s'.lock i = some p ∧ (s'.pc p i).Holds)
    (hfree : s'.lock i = none → (s'.entry i).valid = true → (s'.entry i).Copy (s'.disk i))
    (hheld : (s'.pc p i).Holds → (s'.pc p i).Knows (s'.entry i) (s'.disk i)) : Coherent s' := by
  have hpos := h.ref_pos hr
  have hsame : ∀ j, (s'.entry j).dev = (s.entry j).dev ∧ (s'.entry j).inum = (s.entry j).inum ∧
      (s'.entry j).ref = (s.entry j).ref := by
    intro j
    by_cases hj : j = i
    · rwa [hj]
    · rw [hentry j hj]
      exact ⟨rfl, rfl, rfl⟩
  have hdisk' : ∀ j, j ≠ i → 0 < (s.entry j).ref → s'.disk j = s.disk j := by
    intro j hj hjp
    rw [Icache.disk, hentry j hj]
    refine hdisk _ _ fun ⟨hd, hn⟩ => hj ?_
    exact h.unique j i hjp hpos hd hn
  refine ⟨fun j k hj hk hd hn => ?_, fun j => ?_, fun q j => ?_, fun q j hq => ?_,
    fun j hj hl hv => ?_, fun q j hq => ?_⟩
  · rw [(hsame j).2.2] at hj
    rw [(hsame k).2.2] at hk
    rw [(hsame j).1, (hsame k).1] at hd
    rw [(hsame j).2.1, (hsame k).2.1] at hn
    exact h.unique j k hj hk hd hn
  · rw [(hsame j).2.2, hrefs]
    exact h.counted j
  · by_cases hqj : q = p ∧ j = i
    · obtain ⟨rfl, rfl⟩ := hqj
      rcases hlock' with ⟨hl, hno⟩ | ⟨hl, hyes⟩
      · exact iff_of_false hno (by simp [hl])
      · exact iff_of_true hyes hl
    rw [hpc q j hqj]
    by_cases hj : j = i
    · subst hj
      have hqp : q ≠ p := fun he => hqj ⟨he, rfl⟩
      refine iff_of_false (fun hh => ?_) fun hl => ?_
      · have := (h.lock q j).1 hh
        rcases hmine with hm | hm
        · simp [hm] at this
        · exact hqp (Option.some.inj (this.symm.trans hm))
      · rcases hlock' with ⟨hm, -⟩ | ⟨hm, -⟩
        · simp [hm] at hl
        · exact hqp (Option.some.inj (hl.symm.trans hm))
    · rw [hlock j hj]
      exact h.lock q j
  · rw [hrefs]
    by_cases hqj : q = p ∧ j = i
    · rwa [hqj.1, hqj.2]
    · rw [hpc q j hqj] at hq
      exact h.live q j hq
  · by_cases hji : j = i
    · subst hji
      exact hfree hl hv
    · rw [hentry j hji] at hj hv ⊢
      rw [hlock j hji] at hl
      rw [hdisk' j hji hj]
      exact h.unlocked j hj hl hv
  · by_cases hqj : q = p ∧ j = i
    · obtain ⟨rfl, rfl⟩ := hqj
      exact hheld hq
    rw [hpc q j hqj] at hq ⊢
    have hji : j ≠ i := by
      rintro rfl
      have hqp : q ≠ p := fun he => hqj ⟨he, rfl⟩
      have := (h.lock q j).1 hq
      rcases hmine with hm | hm
      · simp [hm] at this
      · exact hqp (Option.some.inj (this.symm.trans hm))
    have hjp : 0 < (s.entry j).ref := h.pos_of_pc (p := q) fun he => by simp [he, Pc.Holds] at hq
    rw [hentry j hji, hdisk' j hji hjp]
    exact h.locked q j hq

theorem congr (he : s'.entry = s.entry) (hl : s'.lock = s.lock)
    (hd : s'.dinode = s.dinode) (hr : s'.refs = s.refs) (hp : s'.pc = s.pc) : Coherent s' := by
  cases s
  cases s'
  cases he
  cases hl
  cases hd
  cases hr
  cases hp
  exact ⟨h.unique, h.counted, h.lock, h.live, h.unlocked, h.locked⟩

end

theorem card_filter_cons (p : P) (i j : Slot) (r : Multiset (P × Slot)) :
    (((p, i) ::ₘ r).filter fun x => x.2 = j).card =
      (r.filter fun x => x.2 = j).card + if j = i then 1 else 0 := by
  by_cases hj : j = i
  · subst hj
    simp
  · rw [Multiset.filter_cons_of_neg _ fun he => hj he.symm]
    simp [hj]

theorem recount (h : Coherent s)
    (hent : ∀ j, ∃ r, s'.entry j = { s.entry j with ref := r } ∧ (0 < r → 0 < (s.entry j).ref))
    (hlock : s'.lock = s.lock) (hdn : s'.dinode = s.dinode)
    (hcount : ∀ j, (s'.entry j).ref = (s'.refs.filter fun r => r.2 = j).card)
    (hpc : ∀ q j, s'.pc q j = s.pc q j ∨ ¬ (s.pc q j).Holds ∧ ¬ (s'.pc q j).Holds)
    (hlive : ∀ q j, s'.pc q j ≠ .out → (q, j) ∈ s'.refs) : Coherent s' := by
  have hdisk : ∀ j, s'.disk j = s.disk j := by
    intro j
    obtain ⟨r, hr, -⟩ := hent j
    rw [Icache.disk, hr, hdn]
    rfl
  refine ⟨fun j k hj hk hd hn => ?_, hcount, fun q j => ?_, hlive, fun j hj hl hv => ?_,
    fun q j hq => ?_⟩
  · obtain ⟨r, hr, hrp⟩ := hent j
    obtain ⟨r', hr', hrp'⟩ := hent k
    rw [hr] at hj hd hn
    rw [hr'] at hk hd hn
    exact h.unique j k (hrp hj) (hrp' hk) hd hn
  · rw [hlock, ← h.lock q j]
    rcases hpc q j with he | ⟨h1, h2⟩
    · rw [he]
    · exact iff_of_false h2 h1
  · obtain ⟨r, hr, hrp⟩ := hent j
    rw [hr] at hj hv ⊢
    rw [hlock] at hl
    rw [hdisk]
    exact h.unlocked j (hrp hj) hl hv
  obtain ⟨r, hr, -⟩ := hent j
  rcases hpc q j with he | ⟨-, h2⟩
  · rw [he] at hq ⊢
    rw [hr, hdisk]
    exact h.locked q j hq
  · exact absurd hq h2

theorem handOut (h : Coherent s) (hpos : 0 < (s.entry i).ref) :
    Coherent (s.handOut p i { s.entry i with ref := (s.entry i).ref + 1 }) := by
  refine h.recount (fun j => ?_) rfl rfl (fun j => ?_) (fun _ _ => .inl rfl) fun q j hq => ?_
  · by_cases hj : j = i
    · subst hj
      exact ⟨_, update_self .., fun _ => hpos⟩
    · exact ⟨_, update_of_ne hj _ _, id⟩
  · show (update s.entry i _ j).ref = (((p, i) ::ₘ s.refs).filter _).card
    rw [card_filter_cons, ← h.counted j]
    by_cases hj : j = i
    · subst hj
      rw [update_self, if_pos rfl]
    · rw [update_of_ne hj, if_neg hj]
      rfl
  · exact Multiset.mem_cons_of_mem (h.live q j hq)

variable {dev inum : ℕ}

theorem recycle (h : Coherent s) (hi : (s.entry i).ref = 0)
    (hnew : ∀ j, ¬(0 < (s.entry j).ref ∧ (s.entry j).dev = dev ∧ (s.entry j).inum = inum)) :
    Coherent (s.handOut p i
      { s.entry i with dev := dev, inum := inum, ref := 1, valid := false }) := by
  have hout : ∀ q, s.pc q i = .out := by
    intro q
    by_contra hq
    have := h.pos_of_pc hq
    omega
  generalize he :
    ({ s.entry i with dev := dev, inum := inum, ref := 1, valid := false } : Entry) = e
  have hed : e.dev = dev ∧ e.inum = inum ∧ e.ref = 1 ∧ e.valid = false := by
    rw [← he]
    exact ⟨rfl, rfl, rfl, rfl⟩
  have hself : (s.handOut p i e).entry i = e := update_self ..
  have hof : ∀ j, j ≠ i → (s.handOut p i e).entry j = s.entry j :=
    fun j hj => update_of_ne hj _ _
  have hdisk : ∀ j, j ≠ i → (s.handOut p i e).disk j = s.disk j := by
    intro j hj
    rw [Icache.disk, hof j hj]
    rfl
  refine ⟨fun j k hj hk hd hn => ?_, fun j => ?_, h.lock, fun q j hq => ?_,
    fun j hj hl hv => ?_, fun q j hq => ?_⟩
  · by_cases hji : j = i <;> by_cases hki : k = i
    · rw [hji, hki]
    · subst hji
      rw [hself, hof k hki, hed.1] at hd
      rw [hself, hof k hki, hed.2.1] at hn
      rw [hof k hki] at hk
      exact absurd ⟨hk, hd.symm, hn.symm⟩ (hnew k)
    · subst hki
      rw [hself, hof j hji, hed.1] at hd
      rw [hself, hof j hji, hed.2.1] at hn
      rw [hof j hji] at hj
      exact absurd ⟨hj, hd, hn⟩ (hnew j)
    · rw [hof j hji] at hj hd hn
      rw [hof k hki] at hk hd hn
      exact h.unique j k hj hk hd hn
  · show ((s.handOut p i e).entry j).ref = (((p, i) ::ₘ s.refs).filter _).card
    rw [card_filter_cons, ← h.counted j]
    by_cases hj : j = i
    · subst hj
      rw [hself, hed.2.2.1, hi, if_pos rfl]
    · rw [hof j hj, if_neg hj]
      rfl
  · exact Multiset.mem_cons_of_mem (h.live q j hq)
  · by_cases hji : j = i
    · subst hji
      rw [hself, hed.2.2.2] at hv
      cases hv
    · rw [hof j hji] at hj hv ⊢
      rw [hdisk j hji]
      exact h.unlocked j hj hl hv
  · have hji : j ≠ i := by
      rintro rfl
      have hq : (s.pc q j).Holds := hq
      rw [hout q] at hq
      exact hq
    rw [hof j hji, hdisk j hji]
    exact h.locked q j hq

theorem iget (h : Coherent s) (hs : s.iget p dev inum = some s') : Coherent s' := by
  unfold Icache.iget at hs
  split at hs
  · rename_i i hf
    cases hs
    have hi := List.find?_some hf
    exact h.handOut (of_decide_eq_true hi).1
  rename_i hf
  obtain ⟨i, hi, rfl⟩ := Option.map_eq_some_iff.1 hs
  unfold Icache.empty at hi
  have hfree := List.find?_some hi
  refine h.recycle (of_decide_eq_true hfree) fun j hj => ?_
  have := List.find?_eq_none.1 hf j (List.mem_finRange j)
  simp [hj] at this

theorem allocate {d : Dinode} (h : Coherent s) (hfree : (s.dinode dev inum).type = 0) :
    Coherent (s.setDinode dev inum d) := by
  have hdisk : ∀ j, (s.disk j).type ≠ 0 → (s.setDinode dev inum d).disk j = s.disk j := by
    intro j hj
    refine setDinode_of_ne fun ⟨hd, hn⟩ => hj ?_
    have hd : (s.entry j).dev = dev := hd
    have hn : (s.entry j).inum = inum := hn
    rw [Icache.disk, hd, hn, hfree]
  refine ⟨h.unique, h.counted, h.lock, h.live, fun j hj hl hv => ?_, fun q j hq => ?_⟩
  · have hc := h.unlocked j hj hl hv
    rw [hdisk j hc.2]
    exact hc
  have hk := h.locked q j hq
  show (s.pc q j).Knows (s.entry j) _
  cases hpc : s.pc q j with
  | locked | putTrunc | putType =>
    rw [hpc] at hk
    rw [hdisk j hk.2.2]
    exact hk
  | dirty =>
    rw [hpc] at hk
    rw [hdisk j hk.2.2]
    exact hk
  | loading =>
    rw [hpc] at hk
    exact hk
  | putLocked | putUnlock =>
    rw [hpc] at hk
    intro hv
    rw [hdisk j (hk hv).2]
    exact hk hv
  | _ => trivial

variable [DecidableEq P] {pc : Pc}

theorem goto_pc_self : (s.goto p i pc).pc p i = pc := by simp [Icache.goto]

theorem goto_pc_of_ne (h : ¬(q = p ∧ j = i)) : (s.goto p i pc).pc q j = s.pc q j := by
  by_cases hq : q = p
  · subst hq
    have hj : j ≠ i := fun he => h ⟨rfl, he⟩
    simp [Icache.goto, hj]
  · simp [Icache.goto, hq]

variable (h : Coherent s)
include h

theorem change {t : Icache P} {e : Entry} (hp : (s.pc p i).Holds)
    (ht : t = s.setEntry i e ∨ t = (s.setEntry i e).iupdate i)
    (he : e.dev = (s.entry i).dev ∧ e.inum = (s.entry i).inum ∧ e.ref = (s.entry i).ref)
    (hpc : pc.Holds) (hk : pc.Knows e (t.disk i)) : Coherent (t.goto p i pc) := by
  have hl := (h.lock p i).1 hp
  have hself : t.entry i = e := by
    rcases ht with rfl | rfl <;> exact update_self ..
  have hof : ∀ j, j ≠ i → t.entry j = s.entry j := by
    intro j hj
    rcases ht with rfl | rfl <;> exact update_of_ne hj _ _
  have hdn : ∀ d n, ¬(d = (s.entry i).dev ∧ n = (s.entry i).inum) →
      t.dinode d n = s.dinode d n := by
    intro d n hne
    rcases ht with rfl | rfl
    · rfl
    · refine setDinode_of_ne ?_
      rwa [show (s.setEntry i e).entry i = e from update_self .., he.1, he.2.1]
  have hsame : t.lock = s.lock ∧ t.refs = s.refs ∧ t.pc = s.pc := by
    rcases ht with rfl | rfl <;> exact ⟨rfl, rfl, rfl⟩
  refine h.touch (p := p) (i := i) (h.live p i fun ho => by simp [ho, Pc.Holds] at hp) hsame.2.1
    hof (by rwa [show (t.goto p i pc).entry i = e from hself]) hdn
    (fun j _ => congrFun hsame.1 j) (fun q j hne => ?_) (.inr hl) (.inr ⟨?_, ?_⟩) (fun hn => ?_)
    fun _ => ?_
  · rw [goto_pc_of_ne hne, hsame.2.2]
  · exact (congrFun hsame.1 i).trans hl
  · rwa [goto_pc_self]
  · have : t.lock i = none := hn
    rw [hsame.1, hl] at this
    cases this
  · rw [goto_pc_self, show (t.goto p i pc).entry i = e from hself]
    exact hk

theorem test (hp : (s.pc p i).Holds) (hpc : pc.Holds)
    (hk : pc.Knows (s.entry i) (s.disk i)) : Coherent (s.goto p i pc) := by
  have hs : s.setEntry i (s.entry i) = s := by simp [Icache.setEntry]
  exact h.change hp (.inl hs.symm) ⟨rfl, rfl, rfl⟩ hpc hk

theorem acquire (hr : (p, i) ∈ s.refs) (hs : s.acquire p i pc = some s')
    (hpc : pc.Holds)
    (hk : ((s.entry i).valid = true → (s.entry i).Copy (s.disk i)) → pc.Knows (s.entry i)
      (s.disk i)) :
    Coherent s' := by
  unfold Icache.acquire at hs
  split at hs
  · rename_i hl
    cases hs
    refine h.touch (p := p) (i := i) hr rfl (fun _ _ => rfl) ⟨rfl, rfl, rfl⟩ (fun _ _ _ => rfl)
      (fun j hj => update_of_ne hj _ _) (fun q j hne => goto_pc_of_ne hne) (.inl hl)
      (.inr ⟨update_self .., ?_⟩) (fun hn => ?_) fun _ => ?_
    · show ((s.goto p i pc).pc p i).Holds
      rwa [goto_pc_self]
    · have hn : update s.lock i (some p) i = none := hn
      rw [update_self] at hn
      cases hn
    · show ((s.goto p i pc).pc p i).Knows _ _
      rw [goto_pc_self]
      exact hk (h.unlocked i (h.ref_pos hr) hl)
  · cases hs

theorem release (hp : (s.pc p i).Holds) (hpc : ¬ pc.Holds)
    (hk : (s.entry i).valid = true → (s.entry i).Copy (s.disk i)) :
    Coherent (s.release p i pc) := by
  refine h.touch (p := p) (i := i) (h.live p i fun ho => by simp [ho, Pc.Holds] at hp) rfl
    (fun _ _ => rfl) ⟨rfl, rfl, rfl⟩ (fun _ _ _ => rfl)
    (fun j hj => update_of_ne hj _ _) (fun q j hne => goto_pc_of_ne hne)
    (.inr ((h.lock p i).1 hp)) (.inl ⟨update_self .., ?_⟩) (fun _ => hk) fun hh => ?_
  · show ¬ ((s.goto p i pc).pc p i).Holds
    rwa [goto_pc_self]
  · have hh : ((s.goto p i pc).pc p i).Holds := hh
    rw [goto_pc_self] at hh
    exact absurd hh hpc

theorem call (hr : (p, i) ∈ s.refs) (ho : s.pc p i = .out) (hpc : ¬ pc.Holds) :
    Coherent (s.goto p i pc) := by
  refine h.recount (fun j => ⟨_, rfl, id⟩) rfl rfl h.counted (fun q j => ?_) fun q j hq => ?_
  · by_cases hqj : q = p ∧ j = i
    · obtain ⟨rfl, rfl⟩ := hqj
      rw [ho, goto_pc_self]
      exact .inr ⟨id, hpc⟩
    · exact .inl (goto_pc_of_ne hqj)
  · by_cases hqj : q = p ∧ j = i
    · rwa [hqj.1, hqj.2]
    · rw [goto_pc_of_ne hqj] at hq
      exact h.live q j hq

theorem drop (hpc : s.pc p i = .putDrop) : Coherent ((s.drop p i).goto p i .out) := by
  have hr : (p, i) ∈ s.refs := h.live p i (by simp [hpc])
  have hcard : ∀ j, (s.refs.filter fun r => r.2 = j).card =
      ((s.refs.erase (p, i)).filter fun r => r.2 = j).card + if j = i then 1 else 0 := by
    intro j
    rw [← card_filter_cons p i j, Multiset.cons_erase hr]
  refine h.recount (fun j => ?_) rfl rfl (fun j => ?_) (fun q j => ?_) fun q j hq => ?_
  · by_cases hj : j = i
    · subst hj
      exact ⟨_, update_self .., fun hp => by omega⟩
    · exact ⟨_, update_of_ne hj _ _, id⟩
  · show (update s.entry i _ j).ref = ((s.refs.erase (p, i)).filter _).card
    have hc := hcard j
    rw [← h.counted j] at hc
    by_cases hj : j = i
    · subst hj
      rw [update_self]
      show (s.entry j).ref - 1 = _
      rw [if_pos rfl] at hc
      omega
    · rw [update_of_ne hj]
      rw [if_neg hj] at hc
      exact hc
  · by_cases hqj : q = p ∧ j = i
    · obtain ⟨rfl, rfl⟩ := hqj
      rw [hpc, goto_pc_self]
      exact .inr ⟨id, id⟩
    · exact .inl (goto_pc_of_ne hqj)
  · have hqj : ¬(q = p ∧ j = i) := by
      rintro ⟨rfl, rfl⟩
      exact hq goto_pc_self
    rw [goto_pc_of_ne hqj] at hq
    show (q, j) ∈ s.refs.erase (p, i)
    exact (Multiset.mem_erase_of_ne fun he => hqj (Prod.mk.injEq .. ▸ he)).2 (h.live q j hq)

theorem go (hs : s.go p i = some s') : Coherent s' := by
  have hkn := h.locked p i
  have hlive : s.pc p i ≠ .out → (p, i) ∈ s.refs := h.live p i
  cases hpc : s.pc p i with
  | out | locked | dirty => simp [Icache.go, hpc] at hs
  | locking =>
    simp only [Icache.go, hpc] at hs
    refine h.acquire (hlive (by simp [hpc])) hs ?_ fun hc => ?_
    · split <;> trivial
    · split
      · exact ⟨‹_›, hc ‹_›⟩
      · exact Bool.eq_false_of_not_eq_true ‹_›
  | loading =>
    simp only [Icache.go, hpc] at hs
    split at hs
    · cases hs
    rename_i ht
    cases hs
    refine h.change (by rw [hpc]; trivial) (.inl rfl) ⟨rfl, rfl, rfl⟩ trivial ?_
    have hdisk : (s.setEntry i { s.entry i with di := s.disk i, valid := true }).disk i =
        s.disk i := by simp [Icache.disk, Icache.setEntry]
    rw [hdisk]
    exact ⟨rfl, rfl, ht⟩
  | putting =>
    simp only [Icache.go, hpc] at hs
    exact h.acquire (hlive (by simp [hpc])) hs trivial id
  | putLocked =>
    rw [hpc] at hkn
    have hk := hkn trivial
    simp only [Icache.go, hpc, Option.some.injEq] at hs
    subst hs
    refine h.test (by rw [hpc]; trivial) ?_ ?_
    · split <;> trivial
    · split
      · rename_i hdead
        exact ⟨hdead.1, hk hdead.1⟩
      · exact hk
  | putTrunc =>
    rw [hpc] at hkn
    obtain ⟨hv, hc⟩ := hkn trivial
    simp only [Icache.go, hpc, Option.some.injEq] at hs
    subst hs
    refine h.change (by rw [hpc]; trivial) (.inr rfl) ⟨rfl, rfl, rfl⟩ trivial ⟨hv, ?_⟩
    rw [disk_iupdate, setEntry_self]
    refine ⟨rfl, ?_⟩
    show (s.entry i).di.type ≠ 0
    rw [hc.1]
    exact hc.2
  | putType =>
    simp only [Icache.go, hpc, Option.some.injEq] at hs
    subst hs
    exact h.change (by rw [hpc]; trivial) (.inr rfl) ⟨rfl, rfl, rfl⟩ trivial trivial
  | putInvalid =>
    simp only [Icache.go, hpc, Option.some.injEq] at hs
    subst hs
    refine h.change (by rw [hpc]; trivial) (.inl rfl) ⟨rfl, rfl, rfl⟩ trivial fun hv => ?_
    cases hv
  | putUnlock =>
    rw [hpc] at hkn
    simp only [Icache.go, hpc, Option.some.injEq] at hs
    subst hs
    exact h.release (by rw [hpc]; trivial) id (hkn trivial)
  | putDrop =>
    simp only [Icache.go, hpc, Option.some.injEq] at hs
    subst hs
    exact h.drop hpc

theorem scan {ninodes : ℕ} (hs : s.scan ninodes p = some s') : Coherent s' := by
  unfold Icache.scan at hs
  split at hs
  · cases hs
  · split at hs
    · cases hs
    split at hs
    · rename_i hfree
      cases hs
      exact (h.allocate hfree).congr rfl rfl rfl rfl rfl
    · cases hs
      exact h.congr rfl rfl rfl rfl rfl
  · obtain ⟨t, ht, rfl⟩ := Option.map_eq_some_iff.1 hs
    exact (h.iget ht).congr rfl rfl rfl rfl rfl

theorem step {ninodes : ℕ} {l : P × Act P} (hs : s.step ninodes l = some s') : Coherent s' := by
  obtain ⟨p, a⟩ := l
  cases a with
  | iget dev inum => exact h.iget hs
  | go i => exact h.go hs
  | scan => exact h.scan hs
  | idup i q =>
    simp only [Icache.step] at hs
    split at hs
    · rename_i hok
      cases hs
      exact h.handOut (h.ref_pos hok.1)
    · cases hs
  | ilock i =>
    simp only [Icache.step] at hs
    split at hs
    · rename_i hok
      cases hs
      exact h.call hok.1 hok.2.1 id
    · cases hs
  | iput i =>
    simp only [Icache.step] at hs
    split at hs
    · rename_i hok
      cases hs
      exact h.call hok.1 hok.2 id
    · cases hs
  | modify i di =>
    simp only [Icache.step] at hs
    split at hs
    · rename_i hok
      cases hs
      have hk := h.locked p i
      have htype : (s.entry i).valid = true ∧ (s.entry i).di.type ≠ 0 ∧ (s.disk i).type ≠ 0 := by
        rcases hok with hpc | hpc
        · rw [hpc] at hk
          obtain ⟨hv, hc⟩ := hk trivial
          exact ⟨hv, by rw [hc.1]; exact hc.2, hc.2⟩
        · rw [hpc] at hk
          exact hk trivial
      have hp : (s.pc p i).Holds := by rcases hok with hpc | hpc <;> rw [hpc] <;> trivial
      refine h.change hp (.inl rfl) ⟨rfl, rfl, rfl⟩ trivial ⟨htype.1, htype.2.1, ?_⟩
      have hdisk : ∀ d, (s.setEntry i { s.entry i with di := d }).disk i = s.disk i := by
        intro d
        simp [Icache.disk, Icache.setEntry]
      rw [hdisk]
      exact htype.2.2
    · cases hs
  | iupdate i =>
    simp only [Icache.step] at hs
    split at hs
    · rename_i hok
      cases hs
      have hk := h.locked p i
      have htype : (s.entry i).valid = true ∧ (s.entry i).di.type ≠ 0 := by
        rcases hok with hpc | hpc
        · rw [hpc] at hk
          obtain ⟨hv, hc⟩ := hk trivial
          exact ⟨hv, by rw [hc.1]; exact hc.2⟩
        · rw [hpc] at hk
          exact ⟨(hk trivial).1, (hk trivial).2.1⟩
      have hp : (s.pc p i).Holds := by rcases hok with hpc | hpc <;> rw [hpc] <;> trivial
      have hs : s.setEntry i (s.entry i) = s := by simp [Icache.setEntry]
      refine h.change (e := s.entry i) hp (.inr (by rw [hs])) ⟨rfl, rfl, rfl⟩ trivial ⟨htype.1, ?_⟩
      rw [disk_iupdate]
      exact ⟨rfl, htype.2⟩
    · cases hs
  | iunlock i =>
    simp only [Icache.step] at hs
    split at hs
    · rename_i hok
      cases hs
      have hk := h.locked p i
      rw [hok.1] at hk
      exact h.release (by rw [hok.1]; trivial) id fun _ => (hk trivial).2
    · cases hs
  | ialloc dev type =>
    simp only [Icache.step] at hs
    split at hs
    · cases hs
      exact h.congr rfl rfl rfl rfl rfl
    · cases hs

end Coherent

theorem icache_coherent [DecidableEq P] (ninodes : ℕ) (entry : Slot → Entry)
    (dinode : ℕ → ℕ → Dinode) (tr : List (P × Act P)) :
    EveryState (Icache.step ninodes) (start entry dinode) (fun s =>
      (∀ i j, 0 < (s.entry i).ref → 0 < (s.entry j).ref →
        (s.entry i).dev = (s.entry j).dev → (s.entry i).inum = (s.entry j).inum → i = j) ∧
      (∀ i, (s.entry i).ref = (s.refs.filter fun r => r.2 = i).card) ∧
      ∀ i, 0 < (s.entry i).ref → (s.entry i).valid = true → s.lock i = none →
        (s.entry i).di = s.dinode (s.entry i).dev (s.entry i).inum) tr := by
  intro tr' s _ hrun
  have h : Coherent s := by
    refine exec_invariant Coherent ?_ (fun _ _ _ h hs => h.step hs) hrun
    exact ⟨fun i j hi => absurd hi (by simp [start]), fun i => by simp [start],
      fun p i => iff_of_false id (by simp [start]), fun p i hp => absurd rfl hp,
      fun i hi => absurd hi (by simp [start]), fun p i hp => absurd hp id⟩
  exact ⟨h.unique, h.counted, fun i hi hv hl => (h.unlocked i hi hl hv).1⟩

example :
    (exec (Icache.step 2)
      (start (P := Bool) (fun _ => ⟨0, 0, 0, false, ⟨0, 0, 0, 0, 0, fun _ => 0⟩⟩)
        fun _ _ => ⟨1, 0, 0, 0, 0, fun _ => 0⟩)
      ([.iget 1 1, .ilock 0, .go 0, .go 0, .iunlock 0, .iput 0, .go 0, .go 0, .go 0, .go 0].map
        (false, ·) ++ [.ialloc 1 2, .scan, .scan].map (true, ·) ++
        [.go 0, .go 0, .go 0].map (false, ·))).map
      (fun s => ((s.entry 0).ref, (s.entry 0).valid, (s.disk 0).type)) = some (1, false, 2) := by
  decide +kernel

end Xv6.Inodes
