import Xv6.Sys.Claims

namespace Xv6.Sys

open Lib Function

variable {P : Type} {depth : ℕ → ℕ} {p : P} {c c' : Claims} {H : List ℕ} {s s' : Fs P}

namespace Claims

def take (c : Claims) (i : ℕ) : Claims := { c with held := update c.held i (c.held i + 1) }

def letGo (c : Claims) (i : ℕ) : Claims :=
  { c with going := update c.going i (c.going i + 1) }

def takeFile (c : Claims) (f : Fin NFILE) : Claims :=
  { c with files := update c.files f (c.files f + 1) }

def made (c : Claims) (i : ℕ) : Claims := { c with fresh := some i }

def known (c : Claims) : Claims := { c with fresh := none }

section
variable (c : Claims) (i j : ℕ) (f g : Fin NFILE)

@[simp] theorem take_held : (c.take i).held j = c.held j + if j = i then 1 else 0 := by
  by_cases h : j = i
  · subst h
    simp [take]
  · simp [take, h]

@[simp] theorem take_going : (c.take i).going = c.going := rfl
@[simp] theorem take_files : (c.take i).files = c.files := rfl
@[simp] theorem take_fresh : (c.take i).fresh = c.fresh := rfl

@[simp] theorem letGo_held : (c.letGo i).held = c.held := rfl

@[simp] theorem letGo_going : (c.letGo i).going j = c.going j + if j = i then 1 else 0 := by
  by_cases h : j = i
  · subst h
    simp [letGo]
  · simp [letGo, h]

@[simp] theorem letGo_files : (c.letGo i).files = c.files := rfl
@[simp] theorem letGo_fresh : (c.letGo i).fresh = c.fresh := rfl

@[simp] theorem takeFile_held : (c.takeFile f).held = c.held := rfl
@[simp] theorem takeFile_going : (c.takeFile f).going = c.going := rfl

@[simp] theorem takeFile_files :
    (c.takeFile f).files g = c.files g + if g = f then 1 else 0 := by
  by_cases h : g = f
  · subst h
    simp [takeFile]
  · simp [takeFile, h]

@[simp] theorem made_held : (c.made i).held = c.held := rfl
@[simp] theorem made_going : (c.made i).going = c.going := rfl
@[simp] theorem made_files : (c.made i).files = c.files := rfl
@[simp] theorem made_fresh : (c.made i).fresh = some i := rfl

@[simp] theorem known_held : c.known.held = c.held := rfl
@[simp] theorem known_going : c.known.going = c.going := rfl
@[simp] theorem known_files : c.known.files = c.files := rfl
@[simp] theorem known_fresh : c.known.fresh = none := rfl

end

theorem known_eq {c : Claims} (h : c.fresh = none) : c.known = c := by
  cases c
  simp_all [known]

theorem take_comm (c : Claims) (i j : ℕ) : (c.take i).take j = (c.take j).take i := by
  ext k <;> simp [Nat.add_right_comm]

theorem take_takeFile (c : Claims) (i : ℕ) (f : Fin NFILE) :
    (c.take i).takeFile f = (c.takeFile f).take i := rfl

end Claims

theorem Fs.SameTree.named (h : s.SameTree s') (i : ℕ) : s'.Named i ↔ s.Named i := by
  simp only [Fs.Named, h.type, h.entries]

theorem Fs.SameTree.below (h : s.SameTree s') (d i : ℕ) :
    s'.Below depth d i ↔ s.Below depth d i := by
  simp only [Fs.Below, Fs.Older, h.type, h.hist]

theorem Fs.Good.of_sameTree (h : s.Good depth) (ht : s.SameTree s')
    (ho : ∀ f, (s'.file f).type = .inode → (s.inode (s'.file f).ip).type ≠ .free ∧
      ((s'.file f).writable = true → (s.inode (s'.file f).ip).type ≠ .dir))
    (hu : ∀ f, (s'.file f).ref = 0 → (s'.file f).type = .none) : s'.Good depth where
  order d hd e he hz h1 h2 := by
    rw [ht.below]
    exact h.order d (ht.type d ▸ hd) e (ht.entries d ▸ he) hz h1 h2
  closed d hd e he hz := by
    rw [ht.type]
    exact h.closed d (ht.type d ▸ hd) e (ht.entries d ▸ he) hz
  root := by
    rw [ht.type]
    exact h.root
  opened f hf := by
    rw [ht.type]
    exact ho f hf
  unused := hu

variable {i : ℕ}

theorem Knows.live_of_grab (h : Knows depth c s)
    (hi : 0 < c.held i ∨ c.fresh = some i ∨ i = ROOTINO ∨ s.Named i ∨ 0 < s.openCount i) :
    (s.inode i).type ≠ .free := by
  rcases hi with hi | hi | rfl | ⟨d, hd, e, he, hz, rfl⟩ | hi
  · exact h.live i hi
  · exact (h.fresh i hi).type
  · exact h.good.root
  · exact h.good.closed d hd e he hz
  obtain ⟨f, -, hf⟩ := Finset.exists_ne_zero_of_sum_ne_zero (Nat.pos_iff_ne_zero.1 hi)
  obtain ⟨ht, rfl⟩ : (s.file f).type = .inode ∧ (s.file f).ip = i := by
    by_contra hne
    simp [hne] at hf
  exact (h.good.opened f ht).1

theorem Knows.of_take (h : Knows depth (c.take i) s) : Knows depth c s where
  good := h.good
  count j := by
    have := h.count j
    simp only [Claims.take_held, Claims.take_going] at this
    omega
  fileCount := h.fileCount
  live j hj := h.live j (by simp; omega)
  fresh := h.fresh

theorem Knows.quiet (h : Knows depth c s) (ht : s.SameTree s') (hf : s'.file = s.file)
    (hothers : ∀ q, q ≠ p → s'.ofile q = s.ofile q ∧ s'.cwd q = s.cwd q)
    (hcount : ∀ i, c'.held i + c'.going i + s.ref i ≤ c.held i + c.going i + s'.ref i)
    (hfiles : ∀ f, c'.files f ≤ c.files f) (hfresh : ∀ i, c'.fresh = some i → c.fresh = some i)
    (hgrab : ∀ i, 0 < c'.held i →
      0 < c.held i ∨ c.fresh = some i ∨ i = ROOTINO ∨ s.Named i ∨ 0 < s.openCount i) :
    Guar depth p c H s c' s' where
  good := h.good.of_sameTree ht (hf ▸ h.good.opened) (hf ▸ h.good.unused)
  mono i := by rw [ht.hist]
  new i hi := .inl ⟨ht.type i ▸ hi, by rw [ht.hist]⟩
  kept i _ := .inl ⟨ht.type i, by rw [ht.hist]⟩
  entries i _ := .inl (ht.entries i)
  others := hothers
  count i := by
    have := hcount i
    simp only [Fs.openCount, hf]
    omega
  fileCount f := by
    have := hfiles f
    rw [hf]
    omega
  file f := .inl (by rw [hf])
  shared f _ _ := hf ▸ .refl _
  live i hi := by
    rw [ht.type]
    exact h.live_of_grab (hgrab i hi)
  fresh i hi := by
    have hb := h.fresh i (hfresh i hi)
    refine ⟨.inl (hfresh i hi), ?_, ?_, ?_, ?_, hb.root⟩
    · rw [ht.type]
      exact hb.type
    · rw [ht.entries]
      exact hb.entries
    · rw [ht.named]
      exact hb.named
    · simpa only [Fs.openCount, hf] using hb.opened
  grab := hgrab
  names i hi := .inl ((ht.named i).1 hi)
  opens i hi := .inl (by simpa only [Fs.openCount, hf] using hi)

theorem Knows.still (h : Knows depth c s) (ht : s.SameTree s') (hf : s'.file = s.file)
    (hothers : ∀ q, q ≠ p → s'.ofile q = s.ofile q ∧ s'.cwd q = s.cwd q) (hr : s'.ref = s.ref) :
    Guar depth p c H s c s' :=
  h.quiet ht hf hothers (by simp [hr]) (fun _ => le_rfl) (fun _ h => h) (fun _ h => .inl h)

theorem Rely.of_sameTree (ht : s.SameTree s') (hf : s'.file = s.file)
    (ho : s'.ofile p = s.ofile p) (hc : s'.cwd p = s.cwd p) : Rely p c H s s' where
  kept i _ := ⟨ht.type i, by rw [ht.hist]⟩
  mono i := by rw [ht.hist]
  new i hi := .inl ⟨ht.type i ▸ hi, by rw [ht.hist]⟩
  entries i _ := ht.entries i
  ofile := ho
  cwd := hc
  sole f _ hr := by
    rw [hf]
    exact ⟨.refl _, hr⟩
  shared f _ _ := hf ▸ .refl _

theorem Rely.weaken {H' : List ℕ} (h : Rely p c H s s') (hheld : ∀ i, c'.held i ≤ c.held i)
    (hfiles : ∀ f, c'.files f ≤ c.files f) (hfresh : ∀ i, c'.fresh = some i → c.fresh = some i)
    (hH : ∀ i, i ∈ H' → i ∈ H) : Rely p c' H' s s' where
  kept i hi := h.kept i (hi.imp (fun hi => hi.trans_le (hheld i)) (hfresh i))
  mono := h.mono
  new := h.new
  entries i hi :=
    h.entries i (hi.imp (fun hi => ⟨hi.1.trans_le (hheld i), hH i hi.2⟩) (hfresh i))
  ofile := h.ofile
  cwd := h.cwd
  sole f hf := h.sole f (hf.trans_le (hfiles f))
  shared f hf := h.shared f (hf.trans_le (hfiles f))

theorem Rely.of_take (h : Rely p (c.take i) H s s') : Rely p c H s s' :=
  h.weaken (fun j => by simp) (fun _ => le_rfl) (fun _ h => h) (fun _ h => h)

theorem Rely.of_going (h : Rely p (c.letGo i) H s s') : Rely p c H s s' :=
  h.weaken (fun _ => le_rfl) (fun _ => le_rfl) (fun _ h => h) (fun _ h => h)

variable {f : Fin NFILE}

theorem Rely.of_takeFile (h : Rely p (c.takeFile f) H s s') : Rely p c H s s' :=
  h.weaken (fun _ => le_rfl) (fun g => by simp) (fun _ h => h) (fun _ h => h)

theorem Rely.of_cons (h : Rely p c (i :: H) s s') : Rely p c H s s' :=
  h.weaken (fun _ => le_rfl) (fun _ => le_rfl) (fun _ h => h) (fun _ h => List.mem_cons_of_mem _ h)

theorem Rely.of_erase (h : Rely p c H s s') (i : ℕ) : Rely p c (H.erase i) s s' :=
  h.weaken (fun _ => le_rfl) (fun _ => le_rfl) (fun _ h => h) fun _ h => List.mem_of_mem_erase h

theorem Rely.below (h : Rely p c H s s') {d : ℕ} (hd : 0 < c.held d) (hb : s.Below depth d i) :
    s'.Below depth d i := by
  intro hi
  have hkept := (h.kept d (.inl hd)).2
  rcases h.new i hi with ⟨hs, he⟩ | hnew
  · have := hb hs
    rw [Fs.Older, hkept, he]
    exact this
  · exact .inl (hkept ▸ hnew d)

theorem Fs.iget_sameTree (s : Fs P) (i : ℕ) : s.SameTree (s.iget i) := by
  unfold Fs.iget
  split <;> exact ⟨fun _ => rfl, fun _ => rfl, rfl⟩

theorem Fs.iget_ref (s : Fs P) (i j : ℕ) : (s.iget i).ref j = s.ref j + if j = i then 1 else 0 := by
  unfold Fs.iget
  by_cases h : j = i
  · subst h
    split <;> simp_all
  · split <;> simp [h]

@[simp] theorem Fs.iget_file (s : Fs P) (i : ℕ) : (s.iget i).file = s.file := by
  unfold Fs.iget
  split <;> rfl

@[simp] theorem Fs.iget_ofile (s : Fs P) (i : ℕ) : (s.iget i).ofile = s.ofile := by
  unfold Fs.iget
  split <;> rfl

@[simp] theorem Fs.iget_cwd (s : Fs P) (i : ℕ) : (s.iget i).cwd = s.cwd := by
  unfold Fs.iget
  split <;> rfl

theorem Knows.iget (h : Knows depth c s)
    (hi : 0 < c.held i ∨ c.fresh = some i ∨ i = ROOTINO ∨ s.Named i ∨ 0 < s.openCount i) :
    Guar depth p c H s (c.take i) (s.iget i) := by
  refine h.quiet (s.iget_sameTree i) (s.iget_file i) (fun q _ => by simp) (fun j => ?_)
    (fun _ => le_rfl) (fun _ h => h) (fun j hj => ?_)
  · rw [Claims.take_held, Fs.iget_ref]
    simp only [Claims.take_going]
    omega
  rw [Claims.take_held] at hj
  by_cases hji : j = i
  · exact hji ▸ hi
  · simp only [hji, ↓reduceIte, add_zero] at hj
    exact .inl hj

theorem Rely.iget (i : ℕ) : Rely p c H s (s.iget i) :=
  .of_sameTree (s.iget_sameTree i) (s.iget_file i) (by simp) (by simp)

theorem Knows.idup (h : Knows depth c s) (hi : 0 < c.held i) :
    Guar depth p c H s (c.take i) (s.idup i) := by
  refine h.quiet ⟨fun _ => rfl, fun _ => rfl, rfl⟩ rfl (fun _ _ => ⟨rfl, rfl⟩) (fun j => ?_)
    (fun _ => le_rfl) (fun _ h => h) (fun j hj => ?_)
  · by_cases hji : j = i
    · subst hji
      simp only [Fs.idup, Claims.take_held, Claims.take_going, update_self]
      simp
      omega
    · simp [Fs.idup, hji]
  · by_cases hji : j = i
    · exact .inl (hji ▸ hi)
    · exact .inl (by simpa [hji] using hj)

theorem Rely.idup (i : ℕ) : Rely p c H s (s.idup i) :=
  .of_sameTree ⟨fun _ => rfl, fun _ => rfl, rfl⟩ rfl rfl rfl

theorem Knows.drop (h : Knows depth (c.letGo i) s) : Guar depth p (c.letGo i) H s c (s.drop i) := by
  refine h.quiet ⟨fun _ => rfl, fun _ => rfl, rfl⟩ rfl (fun _ _ => ⟨rfl, rfl⟩) (fun j => ?_)
    (fun _ => le_rfl) (fun _ h => h) (fun j hj => .inl hj)
  have hc := h.count j
  by_cases hji : j = i
  · subst hji
    simp only [Fs.drop, Claims.letGo_held, Claims.letGo_going, ↓reduceIte, update_self] at hc ⊢
    omega
  · simp [Fs.drop, hji]

theorem Rely.drop (i : ℕ) : Rely p c H s (s.drop i) :=
  .of_sameTree ⟨fun _ => rfl, fun _ => rfl, rfl⟩ rfl rfl rfl

theorem Fs.load_sameTree (s : Fs P) (i : ℕ) : s.SameTree (s.load i) :=
  ⟨fun _ => rfl, fun _ => rfl, rfl⟩

theorem Fs.setInode_sameTree {x : Inode} (ht : x.type = (s.inode i).type)
    (he : x.entries = (s.inode i).entries) : s.SameTree (s.setInode i x) where
  type j := by
    by_cases h : j = i
    · subst h
      simp [Fs.setInode, ht]
    · simp [Fs.setInode, h]
  entries j := by
    by_cases h : j = i
    · subst h
      simp [Fs.setInode, he]
    · simp [Fs.setInode, h]
  hist := rfl

theorem Fs.reap_of_not_dead (h : s.dead i = false) : s.reap i = s := by
  simp [Fs.reap, h]

theorem Fs.ref_of_dead (h : s.dead i = true) : s.ref i = 1 := by
  simp only [Fs.dead, Bool.and_eq_true, decide_eq_true_eq] at h
  exact h.2

variable {j : ℕ}

theorem Fs.reap_inode_of_ne (h : j ≠ i) : (s.reap i).inode j = s.inode j := by
  unfold Fs.reap
  split <;> simp [h]

theorem Fs.reap_inode_self (h : s.dead i = true) : (s.reap i).inode i = Fs.freed (s.inode i) := by
  simp [Fs.reap, h]

@[simp] theorem Fs.epoch_reap (i j : ℕ) : epoch (s.reap i).hist j = epoch s.hist j := by
  unfold Fs.reap
  split <;> simp [epoch]

@[simp] theorem Fs.reap_ref (i : ℕ) : (s.reap i).ref = s.ref := by
  unfold Fs.reap
  split <;> rfl

@[simp] theorem Fs.reap_file (i : ℕ) : (s.reap i).file = s.file := by
  unfold Fs.reap
  split <;> rfl

@[simp] theorem Fs.reap_ofile (i : ℕ) : (s.reap i).ofile = s.ofile := by
  unfold Fs.reap
  split <;> rfl

@[simp] theorem Fs.reap_cwd (i : ℕ) : (s.reap i).cwd = s.cwd := by
  unfold Fs.reap
  split <;> rfl

theorem Fs.ne_of_reap_dir (hdead : s.dead i = true) (h : ((s.reap i).inode j).type = .dir) :
    j ≠ i := by
  rintro rfl
  simp [Fs.reap_inode_self hdead, Fs.freed] at h

theorem Fs.named_of_reap (hdead : s.dead i = true) (h : (s.reap i).Named j) : s.Named j := by
  obtain ⟨d, hd, e, he, hz⟩ := h
  have hne := Fs.ne_of_reap_dir hdead hd
  rw [Fs.reap_inode_of_ne hne] at hd he
  exact ⟨d, hd, e, he, hz⟩

@[simp] theorem Fs.openCount_reap (i j : ℕ) : (s.reap i).openCount j = s.openCount j := by
  simp [Fs.openCount]

theorem Knows.lone (h : Knows depth (c.take i) s) (hdead : s.dead i = true) :
    c.held i = 0 ∧ s.openCount i = 0 := by
  have hc := h.count i
  rw [Fs.ref_of_dead hdead, Claims.take_held, if_pos rfl] at hc
  omega

theorem Fs.ip_ne_of_openCount (h : s.openCount i = 0) (hf : (s.file f).type = .inode) :
    (s.file f).ip ≠ i := by
  intro hi
  have := Finset.sum_eq_zero_iff.1 h f (Finset.mem_univ f)
  simp [hf, hi] at this

theorem Fs.Good.reap (h : s.Good depth) (hdead : s.dead i = true) (hlive : (s.inode i).type ≠ .free)
    (ha : s.Allow (s.reap i)) (ho : s.openCount i = 0) : (s.reap i).Good depth := by
  have hfree : ((s.reap i).inode i).type = .free := by simp [Fs.reap_inode_self hdead, Fs.freed]
  obtain ⟨hroot, hnames⟩ := ha i hlive hfree
  refine ⟨fun d hd e he hz h1 h2 hi => ?_, fun d hd e he hz => ?_, ?_, fun f hf => ?_, ?_⟩
  · have hdi := Fs.ne_of_reap_dir hdead hd
    have hei := Fs.ne_of_reap_dir hdead hi
    rw [Fs.reap_inode_of_ne hdi] at hd he
    rw [Fs.reap_inode_of_ne hei] at hi
    simpa [Fs.Older] using h.order d hd e he hz h1 h2 hi
  · have hdi := Fs.ne_of_reap_dir hdead hd
    rw [Fs.reap_inode_of_ne hdi] at hd he
    rw [Fs.reap_inode_of_ne (hnames d hdi hd e he)]
    exact h.closed d hd e he hz
  · rw [Fs.reap_inode_of_ne (.symm hroot)]
    exact h.root
  · rw [Fs.reap_file] at hf ⊢
    rw [Fs.reap_inode_of_ne (Fs.ip_ne_of_openCount ho hf)]
    exact h.opened f hf
  · simpa using h.unused

theorem Knows.reap (h : Knows depth (c.take i) s) (ha : s.Allow (s.reap i)) (hH : i ∈ H)
    (hfresh : c.fresh ≠ some i) : Guar depth p (c.take i) H s (c.letGo i) (s.reap i) := by
  have hlive := h.live i (by simp)
  by_cases hdead : s.dead i = true
  · obtain ⟨hheld, ho⟩ := h.lone hdead
    have hne : ∀ j, 0 < c.held j → j ≠ i := by
      rintro j hj rfl
      omega
    refine ⟨h.good.reap hdead hlive ha ho, by simp, fun j hj => ?_, fun j hj => ?_,
      fun j hj => ?_, by simp, fun j => ?_, by simp, by simp, by simp [File.Same.refl],
      fun j hj => ?_, fun j hj => ?_, fun j hj => .inl (by simp at hj ⊢; omega),
      fun j hj => .inl (Fs.named_of_reap hdead hj), fun j hj => .inl (by simpa using hj)⟩
    · rw [Fs.reap_inode_of_ne (Fs.ne_of_reap_dir hdead hj)] at hj
      exact .inl ⟨hj, by simp⟩
    · by_cases hji : j = i
      · subst hji
        exact .inr ⟨by simp, Fs.ref_of_dead hdead⟩
      · exact .inl ⟨by rw [Fs.reap_inode_of_ne hji], by simp⟩
    · by_cases hji : j = i
      · subst hji
        exact .inr (.inl ⟨by simp, hH⟩)
      · exact .inl (by rw [Fs.reap_inode_of_ne hji])
    · rw [Fs.openCount_reap, Claims.letGo_going, Claims.take_held]
      simp only [Claims.letGo_held, Claims.take_going, Fs.reap_ref]
      omega
    · rw [Claims.letGo_held] at hj
      rw [Fs.reap_inode_of_ne (hne j hj)]
      exact h.live j (by simp; omega)
    have hj : c.fresh = some j := hj
    have hji : j ≠ i := fun hji => hfresh (hji ▸ hj)
    have hb := h.fresh j hj
    refine ⟨.inl hj, ?_, ?_, fun hn => hb.named (Fs.named_of_reap hdead hn), ?_, hb.root⟩
    · rw [Fs.reap_inode_of_ne hji]
      exact hb.type
    · rw [Fs.reap_inode_of_ne hji]
      exact hb.entries
    · rw [Fs.openCount_reap]
      exact hb.opened
  · rw [Bool.not_eq_true] at hdead
    rw [Fs.reap_of_not_dead hdead]
    refine h.quiet ⟨fun _ => rfl, fun _ => rfl, rfl⟩ rfl (fun _ _ => ⟨rfl, rfl⟩) (fun j => ?_)
      (fun _ => le_rfl) (fun _ h => h) (fun j hj => .inl (by simp at hj ⊢; omega))
    rw [Claims.letGo_going, Claims.take_held]
    simp only [Claims.letGo_held, Claims.take_going]
    omega

theorem Rely.reap (h : Knows depth (c.take i) s) (hfresh : c.fresh ≠ some i) :
    Rely p c H s (s.reap i) := by
  by_cases hdead : s.dead i = true
  · have hheld := (h.lone hdead).1
    have hne : ∀ j, 0 < c.held j ∨ c.fresh = some j → j ≠ i := by
      rintro j (hj | hj) rfl
      · omega
      · exact hfresh hj
    refine ⟨fun j hj => ⟨by rw [Fs.reap_inode_of_ne (hne j hj)], by simp⟩, by simp,
      fun j hj => ?_, fun j hj => ?_, by simp, by simp, by simp [File.Same.refl],
      by simp [File.Same.refl]⟩
    · rw [Fs.reap_inode_of_ne (Fs.ne_of_reap_dir hdead hj)] at hj
      exact .inl ⟨hj, by simp⟩
    · rw [Fs.reap_inode_of_ne (hne j (hj.imp_left And.left))]
  · rw [Bool.not_eq_true] at hdead
    rw [Fs.reap_of_not_dead hdead]
    exact .refl ..

variable {t : IType}

theorem Fs.alloc_inode_self : (s.alloc i t).inode i = ⟨t, 0, 0, 0, 0, []⟩ := by
  simp [Fs.alloc]

theorem Fs.alloc_inode_of_ne (h : j ≠ i) : (s.alloc i t).inode j = s.inode j := by
  simp [Fs.alloc, h]

theorem Fs.epoch_alloc_self : epoch (s.alloc i t).hist i = s.hist.length + 1 := by
  simp [Fs.alloc, epoch]

theorem Fs.epoch_alloc_of_ne (h : j ≠ i) : epoch (s.alloc i t).hist j = epoch s.hist j := by
  simp [Fs.alloc, epoch, h]

theorem Fs.epoch_lt_alloc (j : ℕ) : epoch s.hist j < epoch (s.alloc i t).hist i := by
  rw [Fs.epoch_alloc_self]
  exact Nat.lt_succ_of_le (epoch_le ..)

theorem Fs.epoch_le_alloc (j : ℕ) : epoch s.hist j ≤ epoch (s.alloc i t).hist j := by
  by_cases h : j = i
  · subst h
    exact (Fs.epoch_lt_alloc _).le
  · rw [Fs.epoch_alloc_of_ne h]

theorem Fs.alloc_new (j : ℕ) (hj : ((s.alloc i t).inode j).type = .dir) :
    ((s.inode j).type = .dir ∧ epoch (s.alloc i t).hist j = epoch s.hist j) ∨
      ∀ k, epoch s.hist k < epoch (s.alloc i t).hist j := by
  by_cases h : j = i
  · subst h
    exact .inr fun k => Fs.epoch_lt_alloc k
  · rw [Fs.alloc_inode_of_ne h] at hj
    exact .inl ⟨hj, Fs.epoch_alloc_of_ne h⟩

theorem Fs.Good.blank (h : s.Good depth) (hfree : (s.inode i).type = .free) (ht : t ≠ .free) :
    (s.alloc i t).Blank i where
  type := by
    rw [Fs.alloc_inode_self]
    exact ht
  entries := by rw [Fs.alloc_inode_self]
  named := by
    rintro ⟨d, hd, e, he, hz, rfl⟩
    by_cases hdi : d = e.inum
    · subst hdi
      simp [Fs.alloc_inode_self] at he
    · rw [Fs.alloc_inode_of_ne hdi] at hd he
      exact h.closed d hd e he hz hfree
  opened := by
    refine Finset.sum_eq_zero fun f _ => if_neg ?_
    rintro ⟨hf, hi⟩
    have hi : (s.file f).ip = i := hi
    exact (h.opened f hf).1 (hi ▸ hfree)
  root := by
    rintro rfl
    exact h.root hfree

theorem Fs.Good.alloc (h : s.Good depth) (hfree : (s.inode i).type = .free) (ht : t ≠ .free) :
    (s.alloc i t).Good depth := by
  have hdir : ∀ d e, ((s.alloc i t).inode d).type = .dir → e ∈ ((s.alloc i t).inode d).entries →
      d ≠ i ∧ (s.inode d).type = .dir ∧ e ∈ (s.inode d).entries := by
    intro d e hd he
    have hdi : d ≠ i := by
      rintro rfl
      simp [Fs.alloc_inode_self] at he
    rw [Fs.alloc_inode_of_ne hdi] at hd he
    exact ⟨hdi, hd, he⟩
  refine ⟨fun d hd e he hz h1 h2 hi => ?_, fun d hd e he hz => ?_, ?_, fun f hf => ?_, h.unused⟩
  · obtain ⟨hdi, hd, he⟩ := hdir d e hd he
    by_cases hei : e.inum = i
    · left
      rw [hei, Fs.epoch_alloc_of_ne hdi]
      exact Fs.epoch_lt_alloc d
    · rw [Fs.alloc_inode_of_ne hei] at hi
      rw [Fs.Older, Fs.epoch_alloc_of_ne hdi, Fs.epoch_alloc_of_ne hei]
      exact h.order d hd e he hz h1 h2 hi
  · obtain ⟨-, hd, he⟩ := hdir d e hd he
    by_cases hei : e.inum = i
    · rw [hei, Fs.alloc_inode_self]
      exact ht
    · rw [Fs.alloc_inode_of_ne hei]
      exact h.closed d hd e he hz
  · rw [Fs.alloc_inode_of_ne (h.blank hfree ht).root.symm]
    exact h.root
  · have hf : (s.file f).type = .inode := hf
    have hne : (s.file f).ip ≠ i := by
      rintro rfl
      exact (h.opened f hf).1 hfree
    show ((s.alloc i t).inode (s.file f).ip).type ≠ _ ∧
      ((s.file f).writable = true → ((s.alloc i t).inode (s.file f).ip).type ≠ _)
    rw [Fs.alloc_inode_of_ne hne]
    exact h.opened f hf

theorem Knows.alloc (h : Knows depth c s) (hfree : (s.inode i).type = .free) (ht : t ≠ .free) :
    Guar depth p c H s (c.made i) (s.alloc i t) := by
  have hne : ∀ j, (s.inode j).type ≠ .free → j ≠ i := by
    rintro j hj rfl
    exact hj hfree
  refine ⟨h.good.alloc hfree ht, Fs.epoch_le_alloc, Fs.alloc_new, fun j hj => ?_, fun j hj => ?_,
    fun _ _ => ⟨rfl, rfl⟩, fun _ => le_rfl, fun _ => le_rfl, fun _ => .inl rfl,
    fun f _ _ => .refl _, fun j hj => ?_, fun j hj => ?_, fun j hj => .inl hj,
    fun j hj => ?_, fun j hj => .inl hj⟩
  · exact .inl ⟨by rw [Fs.alloc_inode_of_ne (hne j hj)], Fs.epoch_alloc_of_ne (hne j hj)⟩
  · exact .inl (by rw [Fs.alloc_inode_of_ne (hne j hj)])
  · have hj := h.live j hj
    rw [Fs.alloc_inode_of_ne (hne j hj)]
    exact hj
  · cases hj
    exact ⟨.inr hfree, h.good.blank hfree ht⟩
  obtain ⟨d, hd, e, he, hz⟩ := hj
  have hdi : d ≠ i := by
    rintro rfl
    simp [Fs.alloc_inode_self] at he
  rw [Fs.alloc_inode_of_ne hdi] at hd he
  exact .inl ⟨d, hd, e, he, hz⟩

theorem Rely.alloc (h : Knows depth c s) (hfree : (s.inode i).type = .free) (t : IType) :
    Rely p c H s (s.alloc i t) := by
  have hne : ∀ j, 0 < c.held j ∨ c.fresh = some j → j ≠ i := by
    rintro j (hj | hj) rfl
    · exact h.live j hj hfree
    · exact (h.fresh j hj).type hfree
  refine ⟨fun j hj => ⟨by rw [Fs.alloc_inode_of_ne (hne j hj)], Fs.epoch_alloc_of_ne (hne j hj)⟩,
    Fs.epoch_le_alloc, Fs.alloc_new, fun j hj => ?_, rfl, rfl, fun f _ hr => ⟨.refl _, hr⟩,
    fun f _ _ => .refl _⟩
  rw [Fs.alloc_inode_of_ne (hne j (hj.imp_left And.left))]

theorem Fs.mem_store {es : List Dirent} {n : ℕ} {e x : Dirent} (h : x ∈ Fs.store es n e) :
    x = e ∨ x ∈ es := by
  unfold Fs.store at h
  split at h
  · exact (List.mem_or_eq_of_mem_set h).symm
  · simpa [or_comm] using h

section
variable {dp n : ℕ} {e : Dirent}

theorem Fs.writeEntry_type (j : ℕ) : ((s.writeEntry dp n e).inode j).type = (s.inode j).type := by
  by_cases h : j = dp
  · subst h
    simp [Fs.writeEntry, Fs.setInode]
  · simp [Fs.writeEntry, Fs.setInode, h]

theorem Fs.writeEntry_entries_of_ne {j : ℕ} (h : j ≠ dp) :
    ((s.writeEntry dp n e).inode j).entries = (s.inode j).entries := by
  simp [Fs.writeEntry, Fs.setInode, h]

theorem Fs.writeEntry_entries_self :
    ((s.writeEntry dp n e).inode dp).entries = Fs.store (s.inode dp).entries n e := by
  simp [Fs.writeEntry, Fs.setInode]

theorem Fs.mem_writeEntry {d : ℕ} {x : Dirent} (h : x ∈ ((s.writeEntry dp n e).inode d).entries) :
    x ∈ (s.inode d).entries ∨ d = dp ∧ x = e := by
  by_cases hd : d = dp
  · subst hd
    rw [Fs.writeEntry_entries_self] at h
    exact (Fs.mem_store h).symm.imp_right fun h => ⟨rfl, h⟩
  · rw [Fs.writeEntry_entries_of_ne hd] at h
    exact .inl h

theorem Knows.writeEntry (h : Knows depth c s) (hdp : 0 < c.held dp) (hH : dp ∈ H)
    (he : e.inum ≠ 0 → 0 < c.held e.inum ∧
      (e.name = dot ∨ e.name = dotdot ∨ s.Below depth dp e.inum)) :
    Guar depth p c H s c.known (s.writeEntry dp n e) := by
  have hbelow : ∀ d i, (s.writeEntry dp n e).Below depth d i ↔ s.Below depth d i := fun d i => by
    rw [Fs.Below, Fs.writeEntry_type]
    rfl
  refine ⟨⟨fun d hd x hx hz h1 h2 => ?_, fun d hd x hx hz => ?_, ?_, fun f hf => ?_,
      h.good.unused⟩, fun _ => le_rfl, fun j hj => ?_, fun j _ => .inl ⟨Fs.writeEntry_type j, rfl⟩,
    fun j hj => ?_, fun _ _ => ⟨rfl, rfl⟩, fun _ => le_rfl, fun _ => le_rfl, fun _ => .inl rfl,
    fun f _ _ => .refl _, fun j hj => ?_, fun j hj => (by cases hj), fun j hj => .inl hj,
    fun j hj => ?_, fun j hj => .inl hj⟩
  · rw [hbelow]
    rw [Fs.writeEntry_type] at hd
    rcases Fs.mem_writeEntry hx with hx | ⟨rfl, rfl⟩
    · exact h.good.order d hd x hx hz h1 h2
    · rcases (he hz).2 with h' | h' | h'
      · exact absurd h' h1
      · exact absurd h' h2
      · exact h'
  · rw [Fs.writeEntry_type] at hd ⊢
    rcases Fs.mem_writeEntry hx with hx | ⟨rfl, rfl⟩
    · exact h.good.closed d hd x hx hz
    · exact h.live _ (he hz).1
  · rw [Fs.writeEntry_type]
    exact h.good.root
  · rw [Fs.writeEntry_type]
    exact h.good.opened f hf
  · rw [Fs.writeEntry_type] at hj
    exact .inl ⟨hj, rfl⟩
  · by_cases hjd : j = dp
    · exact .inr (.inl (hjd ▸ ⟨hdp, hH⟩))
    · exact .inl (Fs.writeEntry_entries_of_ne hjd)
  · rw [Fs.writeEntry_type]
    exact h.live j hj
  · obtain ⟨d, hd, x, hx, hz, rfl⟩ := hj
    rw [Fs.writeEntry_type] at hd
    rcases Fs.mem_writeEntry hx with hx | ⟨rfl, rfl⟩
    · exact .inl ⟨d, hd, x, hx, hz, rfl⟩
    · exact .inr (he hz).1

theorem Rely.writeEntry (hH : dp ∉ H) (hfresh : c.fresh ≠ some dp) :
    Rely p c H s (s.writeEntry dp n e) := by
  refine ⟨fun j _ => ⟨Fs.writeEntry_type j, rfl⟩, fun _ => le_rfl, fun j hj => ?_, fun j hj => ?_,
    rfl, rfl, fun f _ hr => ⟨.refl _, hr⟩, fun f _ _ => .refl _⟩
  · rw [Fs.writeEntry_type] at hj
    exact .inl ⟨hj, rfl⟩
  refine Fs.writeEntry_entries_of_ne ?_
  rintro rfl
  rcases hj with ⟨-, hj⟩ | hj
  · exact hH hj
  · exact hfresh hj

end

theorem Fs.openCount_setFile (s : Fs P) (f : Fin NFILE) (x : File) (i : ℕ) :
    (s.setFile f x).openCount i +
        (if (s.file f).type = .inode ∧ (s.file f).ip = i then 1 else 0) =
      s.openCount i + if x.type = .inode ∧ x.ip = i then 1 else 0 :=
  sum_update_add s.file (fun x => if x.type = .inode ∧ x.ip = i then 1 else 0) f x

theorem Fs.setFile_file_of_ne {g : Fin NFILE} {x : File} (h : g ≠ f) :
    (s.setFile f x).file g = s.file g := by
  simp [Fs.setFile, h]

theorem Fs.setFile_file_self {x : File} : (s.setFile f x).file f = x := by
  simp [Fs.setFile]

@[elab_as_elim] theorem Fs.setFile_cases {x : File} {motive : Fin NFILE → File → Prop}
    (hself : motive f x) (hother : ∀ g, g ≠ f → motive g (s.file g)) (g : Fin NFILE) :
    motive g ((s.setFile f x).file g) := by
  by_cases hgf : g = f
  · subst hgf
    rwa [Fs.setFile_file_self]
  · rw [Fs.setFile_file_of_ne hgf]
    exact hother g hgf

theorem Knows.setFile (h : Knows depth c s) {x : File} (hmine : (s.file f).ref = 0 ∨ 0 < c.files f)
    (hsame : 1 < (s.file f).ref → (s.file f).type = .inode → (s.file f).Same x)
    (hopen : x.type = .inode → (s.inode x.ip).type ≠ .free ∧ (x.writable = true →
      (s.inode x.ip).type ≠ .dir))
    (hunused : x.ref = 0 → x.type = .none)
    (hcount : ∀ i, c'.held i + c'.going i + (if x.type = .inode ∧ x.ip = i then 1 else 0)
      ≤ c.held i + c.going i + if (s.file f).type = .inode ∧ (s.file f).ip = i then 1 else 0)
    (hfile : c'.files f + (s.file f).ref ≤ c.files f + x.ref)
    (hfiles : ∀ g, g ≠ f → c'.files g ≤ c.files g) (hfresh : c'.fresh = none)
    (hgrab : ∀ i, 0 < c'.held i → 0 < c.held i ∨ 0 < s.openCount i)
    (hopens : x.type = .inode → (s.file f).type = .inode ∧ (s.file f).ip = x.ip ∨ 0 < c.held x.ip) :
    Guar depth p c H s c' (s.setFile f x) := by
  have hopens' : ∀ i, 0 < (s.setFile f x).openCount i → 0 < s.openCount i ∨ 0 < c.held i := by
    intro i hi
    have hset := s.openCount_setFile f x i
    by_cases hx : x.type = .inode ∧ x.ip = i
    · obtain ⟨hx, rfl⟩ := hx
      rcases hopens hx with ⟨h1, h2⟩ | h'
      · simp only [h1, h2, hx, and_self, ↓reduceIte] at hset
        omega
      · exact .inr h'
    · rw [if_neg hx] at hset
      omega
  refine ⟨h.good.of_sameTree ⟨fun _ => rfl, fun _ => rfl, rfl⟩ (fun g => ?_) (fun g => ?_),
    fun _ => le_rfl, fun j hj => .inl ⟨hj, rfl⟩, fun j _ => .inl ⟨rfl, rfl⟩, fun j _ => .inl rfl,
    fun _ _ => ⟨rfl, rfl⟩, fun i => ?_, fun g => ?_, fun g => ?_, fun g => ?_,
    fun j hj => ?_, fun j hj => ?_, fun j hj => ?_, fun j hj => .inl hj, hopens'⟩
  · exact Fs.setFile_cases hopen (fun g _ => h.good.opened g) g
  · exact Fs.setFile_cases hunused (fun g _ => h.good.unused g) g
  · have hset := s.openCount_setFile f x i
    have hc := hcount i
    show _ + s.ref i ≤ _ + s.ref i
    omega
  · exact Fs.setFile_cases hfile (fun g hgf => Nat.add_le_add_right (hfiles g hgf) _) g
  · by_cases hgf : g = f
    · exact .inr (hgf ▸ hmine)
    · exact .inl (Fs.setFile_file_of_ne hgf)
  · exact Fs.setFile_cases hsame (fun _ _ _ _ => .refl _) g
  · exact h.live_of_grab ((hgrab j hj).imp_right fun h => .inr (.inr (.inr h)))
  · simp [hfresh] at hj
  · exact (hgrab j hj).imp_right fun h => .inr (.inr (.inr h))

theorem Rely.setFile {x : File}
    (hsole : 0 < c.files f → (s.file f).ref = 1 → (s.file f).Same x ∧ x.ref = 1)
    (hshared : 0 < c.files f → (s.file f).type = .inode → (s.file f).Same x) :
    Rely p c H s (s.setFile f x) := by
  refine ⟨fun _ _ => ⟨rfl, rfl⟩, fun _ => le_rfl, fun j hj => .inl ⟨hj, rfl⟩, fun _ _ => rfl, rfl,
    rfl, fun g => ?_, fun g => ?_⟩
  · exact Fs.setFile_cases hsole (fun _ _ _ hr => ⟨.refl _, hr⟩) g
  · exact Fs.setFile_cases hshared (fun _ _ _ _ => .refl _) g

end Xv6.Sys
