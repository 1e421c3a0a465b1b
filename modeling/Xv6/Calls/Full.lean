import Xv6.Calls.Names
import Xv6.Sys.Full

/-!
Full directories.

`dirlink` panics if `writei` does not take the new entry. That happens in a
directory of the maximum size all of whose entries are in use, which a process
can make with links to one file.
-/

namespace Xv6.Calls

open Lib Fs Function

def Room (I : ℕ → Dinode) (Φ : ℕ → ℕ → Block) (dp n : ℕ) : Prop :=
  spareOf (Φ dp) n < n ∨ (I dp).size < MAXFILE * BSIZE

section
variable {sb : Fs.Super} {I : ℕ → Dinode} {Φ : ℕ → ℕ → Block} {s : State} {dp n : ℕ}

theorem room_iff (h : WellFormed sb I Φ s) (hd : IsDir sb I dp n) :
    Room I Φ dp n ↔ 16 * spareOf (Φ dp) n + 16 ≤ MAXFILE * BSIZE := by
  have hle := hd.le h.settled
  have hmax : MAXFILE * BSIZE = 16 * 4480 := by decide
  have hspare := spareOf_le (Φ dp) n
  rw [Room, hd.size]
  omega

theorem dirlink_cases {name : Sys.Name} (h : WellFormed sb I Φ s) (hv : s.valid dp = true)
    (hd : IsDir sb I dp n) (hnew : slotOf (Φ dp) n name = none) (inum : ℕ) :
    ∃ r s', (dirlink sb dp name inum).result s = (r, s') ∧
      ((r = .ok 0 ∧ Room I Φ dp n ∧
          grown sb I dp (16 * spareOf (Φ dp) n + 16) ≤ sb.nblocks ∧
          Entered sb I Φ dp (spareOf (Φ dp) n) (newEntry inum name) s s') ∨
        (r = .error .outOfBlocks ∧ Room I Φ dp n ∧
          sb.nblocks < grown sb I dp (16 * spareOf (Φ dp) n + 16)) ∨
        (r = .error .dirlink ∧ ¬Room I Φ dp n)) := by
  have hin := h.inum dp hd.lt hd.type
  rw [hd.size, Nat.mul_div_cancel_left _ (by decide)] at hin
  have hlink : Prog.Triple (· = s) (dirlink sb dp name inum) _ _ :=
    dirlink_spec (.start h.settled) hv hd h.live hin
  have hend := hlink.ends s rfl
  rcases hres : (dirlink sb dp name inum).result s with ⟨r | r, s'⟩
  · rw [hres] at hend
    refine ⟨_, s', rfl, .inr ?_⟩
    rw [room_iff h hd]
    rcases hend with ⟨hsome, -⟩ | ⟨-, ⟨hfull, rfl⟩ | ⟨hroom, hblocks, rfl⟩⟩
    · exact absurd hnew hsome
    · exact .inr ⟨rfl, Nat.not_le.2 hfull⟩
    · exact .inl ⟨rfl, hroom, hblocks⟩
  · rw [hres] at hend
    refine ⟨_, s', rfl, .inl ?_⟩
    rcases hend with ⟨hsome, -⟩ | ⟨-, rfl, hs'⟩
    · exact absurd hnew hsome
    · exact ⟨rfl, (room_iff h hd).2 (hs'.le hd), hs'.grown_le hd, hs'⟩

end

def LinkReturns (sb : Fs.Super) (I : ℕ → Dinode) (Φ : ℕ → ℕ → Block) (s : State) (dp n inum : ℕ)
    (name : Sys.Name) : Prop :=
  ∃ r s', (dirlink sb dp name inum).result s = (.ok r, s') ∧
    (r = 0 ∧ Entered sb I Φ dp (spareOf (Φ dp) n) (newEntry inum name) s s' ∨
      r = -1 ∧ Settled sb I Φ s')

theorem dirlink_with_room (sb : Fs.Super) :
    (∀ (I : ℕ → Dinode) (Φ : ℕ → ℕ → Block) (s : State) (dp n inum : ℕ)
      (name : Sys.Name), WellFormed sb I Φ s → s.valid dp = true → IsDir sb I dp n →
      slotOf (Φ dp) n name = none →
      (((dirlink sb dp name inum).result s).1 ≠ .error .dirlink ↔ Room I Φ dp n) ∧
      (LinkReturns sb I Φ s dp n inum name ↔
        Room I Φ dp n ∧ grown sb I dp (16 * spareOf (Φ dp) n + 16) ≤ sb.nblocks) ∧
      (LinkReturns sb I Φ s dp n inum name →
        ∃ s', (dirlink sb dp name inum).result s = (.ok 0, s') ∧
          Entered sb I Φ dp (spareOf (Φ dp) n) (newEntry inum name) s s')) ∧
    ∀ (P : Type) [DecidableEq P] (sb : Sys.Super) (s : Sys.Fs P) (tr : List (P × Sys.Call)),
      EveryStep (Sys.callStep sb) (.ok s) Sys.RoomBefore tr →
        EveryState (Sys.callStep sb) (.ok s) Sys.NeverFull tr := by
  constructor
  · intro I Φ s dp n inum name h hv hd hnew
    obtain ⟨r, s', hres, ⟨rfl, hroom, hblocks, hs'⟩ | ⟨rfl, hroom, hblocks⟩ | ⟨rfl, hfull⟩⟩ :=
      dirlink_cases h hv hd hnew inum
    · refine ⟨iff_of_true ?_ hroom, iff_of_true ⟨0, s', hres, .inl ⟨rfl, hs'⟩⟩ ⟨hroom, hblocks⟩,
        fun _ => ⟨s', hres, hs'⟩⟩
      rw [hres]
      exact fun hc => by cases hc
    · have hno : ¬LinkReturns sb I Φ s dp n inum name := by
        rintro ⟨r, t, ht, -⟩
        rw [hres] at ht
        cases ht
      refine ⟨iff_of_true ?_ hroom, iff_of_false hno fun hc => ?_, fun hc => absurd hc hno⟩
      · rw [hres]
        exact fun hc => by cases hc
      · exact absurd hc.2 (Nat.not_le.2 hblocks)
    · have hno : ¬LinkReturns sb I Φ s dp n inum name := by
        rintro ⟨r, t, ht, -⟩
        rw [hres] at ht
        cases ht
      refine ⟨iff_of_false (fun hc => hc ?_) hfull, iff_of_false hno fun hc => hfull hc.1,
        fun hc => absurd hc hno⟩
      rw [hres]
  · intro P _ sb s tr hroom tr' b hpre hrun
    have hstart : Sys.NeverFull (.ok s : Sys.Between P) := trivial
    exact exec_guarded Sys.NeverFull hstart
      (fun _ _ _ _ hG hs => Sys.neverFull_step hG hs) hrun (hroom.of_prefix hpre)

/-! ### A full directory -/

def fullName (k : ℕ) : Sys.Name := [97, .ofNat (1 + k / 128), .ofNat (1 + k % 128)]

def fullEntry (k : ℕ) : List UInt8 :=
  if k = 0 then newEntry ROOTINO Sys.dot
  else if k = 1 then newEntry ROOTINO Sys.dotdot
  else newEntry 2 (fullName k)

theorem length_fullEntry (k : ℕ) : (fullEntry k).length = 16 := by
  unfold fullEntry
  split_ifs
  · exact length_newEntry ..
  · exact length_newEntry ..
  · exact length_newEntry ..

theorem inum_fullEntry (k : ℕ) : direntInum (fullEntry k) = if k < 2 then ROOTINO else 2 := by
  unfold fullEntry
  split_ifs with h0 h1 h2 h3 h4
  all_goals first
    | exact direntInum_direntBytes ..
    | omega

theorem name_newEntry (inum : ℕ) (name : Sys.Name) :
    cstr DIRSIZ (direntName (newEntry inum name)) = cstr DIRSIZ name := by
  rw [newEntry, direntName_direntBytes _ (length_strncpy ..), cstr_strncpy]

theorem ofNat_ne_zero {m : ℕ} (hpos : 0 < m) (hlt : m < 256) : UInt8.ofNat m ≠ 0 := by
  intro h
  have := congrArg UInt8.toNat h
  rw [UInt8.toNat_ofNat', UInt8.toNat_zero] at this
  omega

theorem cstr_fullName {k : ℕ} (hk : k < 4480) : cstr DIRSIZ (fullName k) = fullName k := by
  have h1 : UInt8.ofNat (1 + k / 128) ≠ 0 := ofNat_ne_zero (by omega) (by omega)
  have h2 : UInt8.ofNat (1 + k % 128) ≠ 0 := ofNat_ne_zero (by omega) (by omega)
  unfold fullName
  generalize UInt8.ofNat (1 + k / 128) = a, UInt8.ofNat (1 + k % 128) = b at h1 h2
  simp [cstr, DIRSIZ, h1, h2]

theorem fullName_inj {j k : ℕ} (hj : j < 4480) (hk : k < 4480) (h : fullName j = fullName k) :
    j = k := by
  simp only [fullName, List.cons.injEq, and_true, true_and] at h
  have h1 := congrArg UInt8.toNat h.1
  have h2 := congrArg UInt8.toNat h.2
  rw [UInt8.toNat_ofNat', UInt8.toNat_ofNat'] at h1 h2
  omega

theorem name_fullEntry {k : ℕ} (hk : k < 4480) : cstr DIRSIZ (direntName (fullEntry k)) =
    if k = 0 then Sys.dot else if k = 1 then Sys.dotdot else fullName k := by
  unfold fullEntry
  split_ifs
  · exact (name_newEntry ..).trans (by decide)
  · exact (name_newEntry ..).trans (by decide)
  · exact (name_newEntry ..).trans (cstr_fullName hk)

theorem name_fullEntry_inj {j k : ℕ} (hj : j < 4480) (hk : k < 4480)
    (h : cstr DIRSIZ (direntName (fullEntry j)) = cstr DIRSIZ (direntName (fullEntry k))) :
    j = k := by
  have hdot : ∀ i, fullName i ≠ Sys.dot := fun i hi => by cases hi
  have hdotdot : ∀ i, fullName i ≠ Sys.dotdot := fun i hi => by cases hi
  have hdots : Sys.dot ≠ Sys.dotdot := by decide
  rw [name_fullEntry hj, name_fullEntry hk] at h
  split_ifs at h with h1 h2 h3 h4 h5 h6 h7 h8
  · omega
  · exact absurd h hdots
  · exact absurd h.symm (hdot k)
  · exact absurd h.symm hdots
  · omega
  · exact absurd h.symm (hdotdot k)
  · exact absurd h (hdot j)
  · exact absurd h (hdotdot j)
  · exact fullName_inj hj hk h

theorem dirlink_full :
    ∃ I Φ s, WellFormed Mkfs.sb I Φ s ∧ s.valid ROOTINO = true ∧ IsDir Mkfs.sb I ROOTINO 4480 ∧
      (∀ j < 4480, ∀ k < 4480, nameAt (Φ ROOTINO) j = nameAt (Φ ROOTINO) k → j = k) ∧
      (I 2).nlink = 4478 ∧ (∀ k < 4480, inumAt (Φ ROOTINO) k = if k < 2 then ROOTINO else 2) ∧
      grown Mkfs.sb I ROOTINO (16 * 4480 + 16) ≤ Mkfs.sb.nblocks ∧
      slotOf (Φ ROOTINO) 4480 [98] = none ∧
      ((dirlink Mkfs.sb ROOTINO [98] 2).result s).1 = .error .dirlink := by
  obtain ⟨I, Φ, h⟩ := Mkfs.exists_directory 4478 length_fullEntry (n := 4480) (by decide)
    (by decide)
  generalize Mkfs.withRoot 4478 fullEntry 4480 = s₁ at h
  have hwf := h.wellFormed length_fullEntry (by decide) (fun k _ => by
    rw [inum_fullEntry]
    split <;> decide) h.settled
  have hdir := h.isDir
  have hname : ∀ k < 4480, nameAt (Φ ROOTINO) k = cstr DIRSIZ (direntName (fullEntry k)) :=
    fun k hk => by rw [nameAt, h.entry length_fullEntry hk]
  have hinum : ∀ k < 4480, inumAt (Φ ROOTINO) k = if k < 2 then ROOTINO else 2 := fun k hk => by
    rw [inumAt, h.entry length_fullEntry hk, inum_fullEntry]
  have hgrown : grown Mkfs.sb I ROOTINO (16 * 4480 + 16) ≤ Mkfs.sb.nblocks := by
    have hgrow := used_grow (c := fun i => cdiv (I i).size) hdir.lt
      (show (I ROOTINO).type ≠ 0 by rw [h.root.1]; decide)
      (max (cdiv (16 * 4480)) (cdiv (16 * 4480 + 16)))
    have hnum : blks (max (cdiv (16 * 4480)) (cdiv (16 * 4480 + 16))) ≤ Mkfs.sb.nblocks := by
      decide
    rw [h.used, h.root.2.1] at hgrow
    rw [grown, h.root.2.1]
    omega
  have hnone : slotOf (Φ ROOTINO) 4480 [98] = none := by
    refine slotOf_none.2 fun k hk hnames => ?_
    have hsame := hnames.2
    rw [hname k hk, name_fullEntry hk] at hsame
    split_ifs at hsame
    · exact absurd hsame (by decide)
    · exact absurd hsame (by decide)
    · cases hsame
  refine ⟨I, Φ, s₁, hwf, h.valid, hdir, fun j hj k hk hjk => ?_, h.file.2, hinum, hgrown, hnone, ?_⟩
  · rw [hname j hj, hname k hk] at hjk
    exact name_fullEntry_inj hj hk hjk
  have hspare : spareOf (Φ ROOTINO) 4480 = 4480 := by
    refine spareOf_eq_iff.2 fun k hk => ?_
    rw [hinum k hk]
    split <;> decide
  have hfull : ¬Room I Φ ROOTINO 4480 := by
    rw [Room, hspare, h.root.2.1]
    decide
  obtain ⟨r, s, hres, ⟨-, hroom, -⟩ | ⟨-, hroom, -⟩ | ⟨rfl, -⟩⟩ :=
    dirlink_cases hwf h.valid hdir hnone 2
  · exact absurd hroom hfull
  · exact absurd hroom hfull
  · rw [hres]

theorem roomy_bare : Sys.Roomy Sys.bare := by
  intro d hd
  obtain rfl := Sys.bareTable_dir hd
  exact ⟨by decide, .inr (by decide)⟩

theorem dirlink_with_room_plain :
    (∃ I Φ s s', WellFormed Mkfs.sb I Φ s ∧
      (dirlink Mkfs.sb ROOTINO [98] 2).result s = (.ok 0, s')) ∧
      ∃ b, exec (Sys.callStep Sys.small) (.ok Sys.bare) [(Sys.only, .mkdir (some [47, 97]))] =
        some b ∧ Sys.NeverFull b := by
  constructor
  · obtain ⟨I, Φ, h⟩ := Mkfs.exists_directory 1 length_plainEntry (n := 32) (by decide) (by decide)
    have hwf := h.wellFormed length_plainEntry (by decide) (by decide) h.settled
    have hspare : spareOf (Φ ROOTINO) 32 = 3 := by
      rw [h.content]
      decide +kernel
    have hblocks : grown Mkfs.sb I ROOTINO (16 * spareOf (Φ ROOTINO) 32 + 16) ≤
        Mkfs.sb.nblocks := by
      rw [hspare, grown, h.root.2.1, show max (cdiv (16 * 32)) (cdiv (16 * 3 + 16)) =
        cdiv (16 * 32) by decide, ← h.root.2.1, update_eq_self (f := fun i => cdiv (I i).size),
        h.used]
      decide
    obtain ⟨-, hiff, hreturns⟩ := (dirlink_with_room Mkfs.sb).1 I Φ _ ROOTINO 32 2 [98] hwf h.valid
      h.isDir (by rw [h.content]; decide +kernel)
    obtain ⟨s', hres, -⟩ := hreturns (hiff.2 ⟨.inl (by rw [hspare]; decide), hblocks⟩)
    exact ⟨I, Φ, _, s', hwf, hres⟩
  obtain ⟨b, hrun, -⟩ := exec_exists (Sys.callStep Sys.small) (.ok Sys.bare)
    [(Sys.only, .mkdir (some [47, 97]))] (fun _ => True) (by decide +kernel)
  refine ⟨b, hrun, (dirlink_with_room Mkfs.sb).2 (Fin 1) Sys.small Sys.bare _
    (fun tr' l t hpre ht => ?_) _ b (List.prefix_refl _) hrun⟩
  rcases tr' with _ | ⟨a, tr'⟩
  · cases ht
    exact roomy_bare
  · have := hpre.length_le
    simp at this

end Xv6.Calls
