import Xv6.Calls.Write
import Xv6.Fs.Free

namespace Xv6.Fs

open Lib Function

def Consistent (sb : Super) (s : State) : Prop :=
  Settled sb (sb.dinode s.disk) (fun i => blockOf (sb.dinode s.disk i) s.disk) s

def content (sb : Super) (s : State) (i : ℕ) : List UInt8 :=
  stream (blockOf (sb.dinode s.disk i) s.disk) 0 (sb.dinode s.disk i).size

def overwrite (c : List UInt8) (off : ℕ) (src : List UInt8) : List UInt8 :=
  c.take off ++ src ++ c.drop (off + src.length)

section
variable {sb : Super} {I : ℕ → Dinode} {Φ : ℕ → ℕ → Block} {s : State} {i : ℕ}

theorem Settled.consistent (h : Settled sb I Φ s) : Consistent sb s := by
  have htotal : total sb (sb.dinode s.disk) s.disk = total sb I s.disk := by
    unfold total
    exact Finset.sum_congr rfl fun i hi => by rw [h.disk i (Finset.mem_range.1 hi)]
  refine ⟨fun _ _ => rfl, fun _ _ _ => rfl, fun i hi hw hv => ?_, fun _ _ _ _ => rfl,
    fun i hi ht => ?_, ?_, ?_, ?_⟩
  · rw [h.disk i hi]
    exact h.cache i hi hw hv
  · rw [h.disk i hi] at ht ⊢
    exact h.filled i hi ht
  · rw [htotal]
    exact h.bits
  · rw [htotal]
    exact h.nodup
  · rw [htotal]
    exact h.range

theorem Settled.content_eq (h : Settled sb I Φ s) (hi : i < sb.ninodes) (ht : (I i).type ≠ 0) :
    content sb s i = stream (Φ i) 0 (I i).size := by
  rw [content, h.disk i hi, show blockOf (I i) s.disk = Φ i from funext (h.files i hi ht)]

end

theorem stream_splice_all {φ : ℕ → Block} {off size : ℕ} (h : off ≤ size) (src : List UInt8) :
    stream (splice φ off src) 0 (max size (off + src.length)) =
      overwrite (stream φ 0 size) off src := by
  have hn : 0 < BSIZE := by decide
  have hsplit : max size (off + src.length) =
      off + (src.length + (size - (off + src.length))) := by omega
  rw [hsplit, stream_add, stream_add, Nat.zero_add, stream_splice hn, overwrite, take_stream,
    drop_stream, Nat.zero_add, min_eq_left h, List.append_assoc]
  congr 1
  · refine stream_congr fun p _ hp => ?_
    rw [streamByte_splice hn, if_neg (by omega)]
  · congr 1
    refine stream_congr fun p hp _ => ?_
    rw [streamByte_splice hn, if_neg (by omega)]

theorem files_are_bytes (sb : Super) (s : State) (h : Consistent sb s) (w : ℕ)
    (hw : w < sb.ninodes) (hv : s.valid w = true) (hdev : (s.inode w).type ≠ T_DEV)
    (off n : UInt32) (src : List UInt8) (hsrc : src.length = n.toNat) (dw : Option ℕ)
    (dr : Option (List UInt8)) :
    Prog.Triple (· = s) (writei sb dw w src off n)
      (fun r s' => (r = none ↔ Refused (s.inode w) off.toNat n.toNat) ∧ (r = none → s' = s) ∧
        (r ≠ none → r = some n.toNat ∧ Consistent sb s' ∧
          content sb s' w = overwrite (content sb s w) off.toNat src ∧
          (sb.dinode s'.disk w).size = max (s.inode w).size (off.toNat + n.toNat) ∧
          s'.inode w = sb.dinode s'.disk w ∧ ∀ i < sb.ninodes, i ≠ w →
            sb.dinode s'.disk i = sb.dinode s.disk i ∧
            ((sb.dinode s.disk i).type ≠ 0 → content sb s' i = content sb s i)))
      (fun e _ => e = .outOfBlocks ∧ ¬Refused (s.inode w) off.toNat n.toNat ∧
        sb.nblocks < grown sb (sb.dinode s.disk) w (off.toNat + n.toNat)) ∧
    Prog.Triple (· = s) (readi sb dr w off n)
      (fun r s' => r = (if (s.inode w).size < off.toNat ∨ 2 ^ 32 ≤ off.toNat + n.toNat then none
        else some (((content sb s w).drop off.toNat).take n.toNat)) ∧ s' = s)
      fun _ _ => False := by
  obtain ⟨hmem, htype⟩ := h.cache w hw (Option.some_ne_none w) hv
  rw [hmem] at hdev ⊢
  constructor
  · have hkeep : Prog.Keeps (Beside w s) _ (writei sb dw w src off n) := keeps_writei ..
    refine ((writei_spec h hw hv hdev hsrc dw).and hkeep).conseq
      (fun t ht => ⟨ht, ht ▸ ⟨rfl, rfl, fun _ _ => rfl⟩⟩) ?_
      fun e t he => ⟨he.1.1, he.1.2.1, he.1.2.2.1⟩
    rintro r t ⟨⟨hout, rfl, rfl⟩ | ⟨hok, rfl, x, hx, hset, -⟩, hside⟩
    · exact ⟨⟨fun _ => hout, fun _ => rfl⟩, fun _ => rfl, fun hr => absurd rfl hr⟩
    have hself := hset.disk w hw
    rw [update_self] at hself
    have hsize : x.size = max (sb.dinode s.disk w).size (off.toNat + n.toNat) := by rw [hx]; rfl
    have hsome := Option.some_ne_none n.toNat
    refine ⟨⟨fun hr => absurd hr hsome, fun hr => absurd hr hok⟩, fun hr => absurd hr hsome,
      fun _ => ⟨rfl, hset.consistent, ?_, hself ▸ hsize, ?_, fun i hi hne => ⟨?_, fun ht => ?_⟩⟩⟩
    · have hle : off.toNat ≤ (sb.dinode s.disk w).size := not_lt.1 fun hlt => hok (.inl hlt)
      rw [hset.content_eq hw (by rw [update_self, hx]; exact htype), update_self, update_self,
        hsize, ← hsrc, stream_splice_all hle, content]
    · rw [hself, (hset.cache w hw (Option.some_ne_none w) (hside.valid ▸ hv)).1, update_self]
    · rw [hset.disk i hi, update_of_ne hne]
    · rw [hset.content_eq hi (by rwa [update_of_ne hne]), update_of_ne hne, update_of_ne hne,
        content]
  · refine (readi_spec h hw hv hdev dr).post fun r t ht => ⟨ht.1.trans ?_, ht.2⟩
    have hwrap : off + n < off ↔ 2 ^ 32 ≤ off.toNat + n.toNat :=
      ⟨lt_of_add_lt, fun hle => not_not.1 fun hlt => by
        have := toNat_add_of_not_lt hlt
        have := (off + n).toNat_lt
        omega⟩
    simp only [hwrap]
    split
    · rfl
    · rw [content, drop_stream, take_stream, Nat.zero_add]

theorem files_are_bytes_large : ∃ s : State, Consistent Mkfs.sb s ∧ s.valid 2 = true ∧
    Prog.Triple (· = s) (readi Mkfs.sb none 2 512 8)
      (fun r s' => r = (if (s.inode 2).size < 512 ∨ 2 ^ 32 ≤ 512 + 8 then none
        else some (((content Mkfs.sb s 2).drop 512).take 8)) ∧ s' = s) fun _ _ => False := by
  obtain ⟨st, I, Φ, -, -, -, h⟩ := Calls.openAt_appending
  have hset := (h 0).settled.load (w := 2) (by rw [(h 0).regular]; decide)
  refine ⟨_, hset.consistent, State.load_valid .., (files_are_bytes _ _ hset.consistent 2 (h 0).lt
    (State.load_valid ..) ?_ 512 8 (.replicate 8 1) List.length_replicate none none).2⟩
  rw [State.load, State.setInode_self, (h 0).regular]
  decide

def packed : Super where
  size := 5
  nblocks := 0
  ninodes := 2
  nlog := 0
  logstart := 3
  inodestart := 3
  bmapstart := 4
  boot_le := by decide
  log_le := by decide
  inode_le := by decide
  bmap_le := by decide
  size_lt := by decide

def packedDisk : ℕ → Block := update (fun _ => zeros) 4 ((List.range 5).foldl setBit zeros)

def packedState : State :=
  ((State.boot packedDisk).write 3 (putDinode · 1 (.new T_FILE))).load 1 (.new T_FILE)

theorem consistent_packed : Consistent packed packedState := by
  have hset : Settled packed (fun _ => .new 0) (fun _ _ => zeros) (.boot packedDisk) :=
    Mkfs.settled_blank (fun _ _ hb => update_of_ne hb.ne ..) (by decide)
  have hmade := hset.adopt (w := 1) (x := .new T_FILE) (by decide) rfl (by decide)
    (Dinode.new_fits (by decide)) rfl rfl
  have hload := hmade.load (w := 1) (by rw [update_self]; decide)
  rw [update_self] at hload
  exact hload.consistent

theorem writei_full_disk : Consistent packed packedState ∧ packedState.valid 1 = true ∧
    (packedState.inode 1).type = T_FILE ∧ ¬Refused (packedState.inode 1) 0 1 ∧
    ((writei packed none 1 [7] 0 1).result packedState).1 = .error .outOfBlocks := by
  refine ⟨consistent_packed, rfl, rfl, by decide, ?_⟩
  decide +kernel

inductive InodeCall where
  | iget (ip : ℕ)
  | ilock (ip : ℕ)
  | readi (dev : Option (List UInt8)) (ip : ℕ) (off n : UInt32)
  | writei (dev : Option ℕ) (ip : ℕ) (src : List UInt8) (off n : UInt32)
  | ialloc (type : ℕ)
  | iput (ip : ℕ)

def InodeCall.run (sb : Super) : InodeCall → Op Unit
  | .iget ip => Fs.iget sb ip
  | .ilock ip => Fs.ilock sb ip
  | .readi dev ip off n => do
      let _ ← Fs.readi sb dev ip off n
      pure ()
  | .writei dev ip src off n => do
      let _ ← Fs.writei sb dev ip src off n
      pure ()
  | .ialloc type => do
      let _ ← Fs.ialloc sb type
      pure ()
  | .iput ip => Fs.iput sb ip

def InodeCall.allowed (sb : Super) (s : State) : InodeCall → Bool
  | .iget _ => true
  | .ilock ip => decide (ip < sb.ninodes) && decide (0 < s.ref ip)
  | .readi _ ip _ _ => decide (ip < sb.ninodes) && s.valid ip
  | .writei _ ip src _ n => decide (ip < sb.ninodes) && s.valid ip && decide (src.length = n.toNat)
  | .ialloc type => decide (type ≠ 0) && decide (type < 2 ^ 16)
  | .iput ip => decide (ip < sb.ninodes)

def InodeCall.step (sb : Super) (s : State) (c : InodeCall) : Option State :=
  if c.allowed sb s then
    match (c.run sb).result s with
    | (.ok _, t) => some t
    | (.error _, _) => none
  else none

def InodeCall.changes : InodeCall → Option ℕ
  | .writei _ ip _ _ _ => some ip
  | .iput ip => some ip
  | _ => none

structure Changed (sb : Super) (s : State) (w : Option ℕ) (t : State) : Prop where
  consistent : Consistent sb t
  same : ∀ i < sb.ninodes, (sb.dinode s.disk i).type ≠ 0 → w ≠ some i →
    sb.dinode t.disk i = sb.dinode s.disk i ∧ content sb t i = content sb s i

section
variable {sb : Super} {s t : State}

theorem Settled.changed {I : ℕ → Dinode} {Φ : ℕ → ℕ → Block} {w : Option ℕ} (h : Settled sb I Φ t)
    (hsame : ∀ i, (sb.dinode s.disk i).type ≠ 0 → w ≠ some i →
      I i = sb.dinode s.disk i ∧ Φ i = blockOf (sb.dinode s.disk i) s.disk) :
    Changed sb s w t := by
  refine ⟨h.consistent, fun i hi ht hne => ?_⟩
  obtain ⟨hI, hΦ⟩ := hsame i ht hne
  rw [h.content_eq hi (hI ▸ ht), h.disk i hi, hI, hΦ, content]
  exact ⟨rfl, rfl⟩

theorem Consistent.changed (h : Consistent sb s) (w : Option ℕ) : Changed sb s w s :=
  Settled.changed h fun _ _ _ => ⟨rfl, rfl⟩

theorem InodeCall.run_changed (h : Consistent sb s) (c : InodeCall) (hc : c.allowed sb s = true) :
    Triple (· = s) (c.run sb) (fun _ => Changed sb s c.changes) fun e _ => e ≠ .freeingFree := by
  have hstart : ∀ t, t = s → Held sb _ _ s 0 t := fun t ht => by
    rw [ht]
    exact .start h
  cases c with
  | iget ip =>
    refine (Held.iget.pre hstart).mono (fun _ t ht => ?_) fun e _ he => by
      rw [he]
      decide
    exact ht.settled.changed fun _ _ _ => ⟨rfl, rfl⟩
  | ilock ip =>
    simp only [allowed, Bool.and_eq_true, decide_eq_true_eq] at hc
    exact ((Held.ilock hc.1 (Nat.lt_add_right _ hc.2)).pre hstart).mono
      (fun _ t ht => ht.2.2.settled.changed fun _ _ _ => ⟨rfl, rfl⟩) fun e _ he => by
        rw [he.1]
        decide
  | readi dev ip off n =>
    simp only [allowed, Bool.and_eq_true, decide_eq_true_eq] at hc
    have hmem := (h.cache ip hc.1 (Option.some_ne_none ip) hc.2).1
    refine .bind (R := fun _ t => t = s) ?_ fun _ => .pure fun t ht => ht ▸ h.changed _
    by_cases hdev : (sb.dinode s.disk ip).type = T_DEV
    · unfold Fs.readi
      refine .bind (R := fun x t => x = sb.dinode s.disk ip ∧ t = s)
        (.read fun t ht => ⟨by rw [ht, hmem], ht⟩) fun x => .of_and fun hx => ?_
      rw [hx, if_pos hdev]
      exact .pure fun t ht => ht
    · exact ((readi_spec h hc.1 hc.2 hdev dev).panics _).post fun _ t ht => ht.2
  | writei dev ip src off n =>
    simp only [allowed, Bool.and_eq_true, decide_eq_true_eq] at hc
    obtain ⟨⟨hip, hv⟩, hsrc⟩ := hc
    have hmem := (h.cache ip hip (Option.some_ne_none ip) hv).1
    refine .bind (R := fun _ => Changed sb s (some ip)) ?_ fun _ => .pure fun t ht => ht
    by_cases hdev : (sb.dinode s.disk ip).type = T_DEV
    · unfold Fs.writei
      refine .bind (R := fun x t => x = sb.dinode s.disk ip ∧ t = s)
        (.read fun t ht => ⟨by rw [ht, hmem], ht⟩) fun x => .of_and fun hx => ?_
      rw [hx, if_pos hdev]
      exact .pure fun t ht => ht ▸ h.changed _
    · refine (writei_spec h hip hv hdev hsrc dev).mono ?_ fun e _ he => by
        rw [he.1]
        decide
      rintro r t (⟨-, -, rfl⟩ | ⟨-, -, x, -, hset, -⟩)
      · exact h.changed _
      · exact hset.changed fun i _ hne =>
          have hi : i ≠ ip := fun hi => hne (hi ▸ rfl)
          ⟨update_of_ne hi .., update_of_ne hi ..⟩
  | ialloc type =>
    simp only [allowed, Bool.and_eq_true, decide_eq_true_eq] at hc
    have hl : ∀ i ∈ List.range' 1 (sb.ninodes - 1), i < sb.ninodes := fun i hi => by
      have := List.mem_range'_1.1 hi
      omega
    refine .bind ((iallocLoop_spec h hc.1 hc.2 hl).err fun e _ he => ?_) fun _ =>
      .pure fun t ht => ht.2.2.1.changed fun i hi _ =>
        have hne : i ≠ _ := fun heq => hi (heq ▸ ht.2.1)
        ⟨update_of_ne hne .., update_of_ne hne ..⟩
    rcases he with ⟨rfl, -⟩ | rfl
    · decide
    · decide
  | iput ip =>
    exact ((iput_spec h (of_decide_eq_true hc)).panics _).post fun _ t ht => by
      obtain ⟨J, hJ, hset⟩ := ht
      exact hset.changed fun i _ hne => ⟨hJ i (.inl fun hi => hne (hi ▸ rfl)), rfl⟩

theorem InodeCall.run_spec (h : Consistent sb s) (c : InodeCall) (hc : c.allowed sb s = true) :
    Triple (· = s) (c.run sb) (fun _ => Consistent sb) fun e _ => e ≠ .freeingFree :=
  (run_changed h c hc).post fun _ _ ht => ht.consistent

theorem InodeCall.step_changed {c : InodeCall} (h : Consistent sb s)
    (hstep : step sb s c = some t) :
    Changed sb s c.changes t := by
  unfold step at hstep
  split_ifs at hstep with hc
  split at hstep
  · rename_i hres
    cases hstep
    exact (run_changed h c hc).of_ok rfl hres
  · cases hstep

theorem blocks_owned_once (sb : Super) (s t : State) (tr : List InodeCall)
    (h : Consistent sb s) (hrun : exec (InodeCall.step sb) s tr = some t) :
    Consistent sb t ∧
      ∀ c : InodeCall, c.allowed sb t = true →
        ((c.run sb).result t).1 ≠ .error .freeingFree := by
  have ht : Consistent sb t := by
    refine exec_invariant (Consistent sb) h (fun u c v hu hstep => ?_) hrun
    unfold InodeCall.step at hstep
    split_ifs at hstep with hc
    split at hstep
    · rename_i hres
      cases hstep
      exact (InodeCall.run_spec hu c hc).of_ok rfl hres
    · cases hstep
  exact ⟨ht, fun c hc herr => (InodeCall.run_spec ht c hc).of_error rfl (Prod.ext herr rfl) rfl⟩

end

theorem blocks_owned_once_file : ∃ t, exec (InodeCall.step Mkfs.sb) (.boot Mkfs.Img.blank.full)
    [.ialloc T_FILE, .ilock 1, .writei none 1 (.replicate 600 7) 0 600, .iput 1] = some t ∧
      Consistent Mkfs.sb t := by
  obtain ⟨t, hrun, -⟩ := exec_exists (InodeCall.step Mkfs.sb) (.boot Mkfs.Img.blank.full)
    [.ialloc T_FILE, .ilock 1, .writei none 1 (.replicate 600 7) 0 600, .iput 1] (fun _ => True)
    (by decide +kernel)
  exact ⟨t, hrun, (blocks_owned_once _ _ _ _ Mkfs.settled_sb.consistent hrun).1⟩

def Kept (files : List Mkfs.Input) (tr : List InodeCall) (t : State) : Prop :=
  Consistent Mkfs.sb t ∧ ∀ j f, files[j]? = some f → (∀ c ∈ tr, c.changes ≠ some (j + 2)) →
    (Mkfs.sb.dinode t.disk (j + 2)).type = T_FILE ∧ content Mkfs.sb t (j + 2) = f.bytes

theorem image_files_kept (files : List Mkfs.Input) (hn : files.length + 2 ≤ Mkfs.NINODES)
    (hmod : (files.length + 2) % 32 ≠ 0) (hfits : Mkfs.Fits files) :
    ∃ st, (Mkfs.mkfs files).result .start = (.ok (), st) ∧ ∀ tr t,
      exec (InodeCall.step Mkfs.sb) (.boot st.disk) tr = some t → Kept files tr t := by
  obtain ⟨st, I, Φ, hres, h⟩ := Mkfs.mkfs_returns files (hn.trans (by decide)) hfits
  have hset := h.settled hn hmod
  have hlt {j f} (hj : files[j]? = some f) : j + 2 < Mkfs.sb.ninodes :=
    (Nat.add_lt_add_right (List.getElem?_eq_some_iff.1 hj).1 2).trans_le hn
  refine ⟨st, hres, fun tr t => exec_history (Kept files) ⟨hset.consistent, ?_⟩ ?_⟩
  · intro j f hj _
    obtain ⟨hfile, hbytes⟩ := h.made.file j f hj
    have hI : Mkfs.table I (j + 2) = I (j + 2) := update_of_ne (by simp only [ROOTINO]; omega) ..
    have htype : (I (j + 2)).type = T_FILE := congrArg Dinode.type hfile
    rw [hset.content_eq (hlt hj) (by rw [hI, htype]; decide), hset.disk _ (hlt hj), hI, hfile]
    exact ⟨rfl, hbytes⟩
  · intro tr t c u _ ht hstep
    have hc := InodeCall.step_changed ht.1 hstep
    refine ⟨hc.consistent, fun j f hj hno => ?_⟩
    obtain ⟨hpast, hnow⟩ := List.forall_mem_append.1 hno
    obtain ⟨htype, hbytes⟩ := ht.2 j f hj hpast
    obtain ⟨hd, hsame⟩ := hc.same _ (hlt hj) (htype ▸ by decide) (hnow c (.head _))
    exact ⟨hd ▸ htype, hsame.trans hbytes⟩

def twoInputs : List Mkfs.Input :=
  [⟨[97], [.replicate 512 7, .replicate 88 8], by decide +kernel, by decide +kernel⟩,
    ⟨[98], [[1, 2, 3]], by decide, by decide⟩]

theorem fits_twoInputs : Mkfs.Fits twoInputs :=
  ⟨by decide, by decide +kernel, by decide +kernel⟩

theorem image_files_kept_other : ∃ st t, (Mkfs.mkfs twoInputs).result .start = (.ok (), st) ∧
    exec (InodeCall.step Mkfs.sb) (.boot st.disk)
      [.iget 3, .ilock 3, .writei none 3 [4, 5, 6] 1 3] = some t ∧
    content Mkfs.sb t 3 = [1, 4, 5, 6] ∧
    content Mkfs.sb t 2 = .replicate 512 7 ++ .replicate 88 8 := by
  obtain ⟨st, hres, h⟩ := image_files_kept twoInputs (by decide) (by decide) fits_twoInputs
  obtain ⟨t, hrun, ht⟩ := exec_exists (InodeCall.step Mkfs.sb)
    (.boot ((Mkfs.mkfs twoInputs).result .start).2.disk)
    [.iget 3, .ilock 3, .writei none 3 [4, 5, 6] 1 3]
    (fun t => content Mkfs.sb t 3 = [1, 4, 5, 6]) (by decide +kernel)
  rw [hres] at hrun
  exact ⟨st, t, hres, hrun, ht, ((h _ t hrun).2 0 _ rfl (by decide)).2⟩

end Xv6.Fs
