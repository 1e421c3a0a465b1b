import Xv6.Mkfs.Sound

namespace Xv6.Mkfs

open Lib Fs Function

def kernel (st : Img) (w : ℕ) : State := (State.boot st.disk).load w (sb.dinode st.disk w)

section
variable {I : ℕ → Dinode} {Φ : ℕ → ℕ → Block} {c : ℕ → ℕ} {s : State} {files : List Input}
  {st : Img}

theorem total_area (hfree : ∀ i, NINODES ≤ i → (I i).type = 0) (disk : ℕ → Block) :
    total area I disk = total sb I disk := by
  unfold total
  refine (Finset.sum_subset (Finset.range_mono (by decide)) fun i _ hi => ?_).symm
  exact own_free (hfree i (not_lt.1 fun hlt => hi (Finset.mem_range.2 hlt)))

theorem core_narrow (h : Core area none I I Φ c 0 s)
    (hfree : ∀ i, NINODES ≤ i → (I i).type = 0) : Core sb none I I Φ c 0 s := by
  have hlt : ∀ i < sb.ninodes, i < area.ninodes := fun i hi => hi.trans (by decide)
  have htotal := total_area hfree s.disk
  refine ⟨fun i hi => h.disk i (hlt i hi), fun i hi => h.same i (hlt i hi),
    fun i hi => h.cache i (hlt i hi), fun i hi => h.files i (hlt i hi),
    fun i hi => h.filled i (hlt i hi), ?_, ?_, ?_⟩
  · rw [← htotal]
    exact h.bits
  · rw [← htotal]
    exact h.nodup
  · rw [← htotal]
    exact h.range

def table (I : ℕ → Dinode) : ℕ → Dinode := update I ROOTINO (fixedRoot (I ROOTINO))

variable (h : Done files I Φ st)
include h

theorem Done.free {i : ℕ} (hi : files.length + 2 ≤ i) : table I i = .new 0 := by
  have hne : i ≠ ROOTINO := by
    simp only [ROOTINO]
    omega
  rw [table, update_of_ne hne, h.made.free i hne (.inr hi)]

theorem Done.narrow (hn : files.length + 2 ≤ NINODES) :
    Core sb none (table I) (table I) Φ (fun i => cdiv (I i).size) 0 (.boot st.disk) :=
  core_narrow h.core fun _ hi => congrArg Dinode.type (h.free (hn.trans hi))

theorem Done.dinode {i : ℕ} (hi : i < area.ninodes) :
    sb.dinode st.disk i = table I i := h.core.disk i hi

theorem Done.root_size (hn : files.length + 2 ≤ area.ninodes) :
    (sb.dinode st.disk ROOTINO).size = (16 * (files.length + 2) / BSIZE + 1) * BSIZE := by
  have hnin : area.ninodes = 208 := rfl
  rw [h.dinode (by decide), table, update_self, fixedRoot, h.made.root_size]
  refine Nat.mod_eq_of_lt ?_
  simp only [BSIZE]
  omega

end

def emptyInput : Input := ⟨[97], [], by simp, by simp⟩

theorem need_empty (n : ℕ) : need (List.replicate n emptyInput) = blks (cdiv (16 * (n + 2))) := by
  rw [need, List.length_replicate, List.map_replicate, List.sum_replicate]
  show blks (cdiv (16 * (n + 2))) + n • blks (cdiv 0) = _
  rw [show blks (cdiv 0) = 0 by decide, nsmul_zero, Nat.add_zero]

theorem fits_empty {n : ℕ} (hn : n ≤ 206) : Fits (List.replicate n emptyInput) := by
  refine ⟨fun f hf => ?_, fun f hf => ?_, ?_⟩
  · rw [List.eq_of_mem_replicate hf]
    decide
  · rw [List.eq_of_mem_replicate hf]
    exact Nat.zero_le _
  · rw [need_empty]
    calc blks (cdiv (16 * (n + 2))) ≤ blks (cdiv (16 * (206 + 2))) :=
          blks_mono (cdiv_mono (by omega))
      _ ≤ area.nblocks := by decide

def numbered (n : ℕ) : List (List UInt8) :=
  (List.range n).map fun k => List.replicate 512 (.ofNat (k + 1))

theorem flatten_numbered_succ (n : ℕ) :
    (numbered (n + 1)).flatten = (numbered n).flatten ++ List.replicate 512 (.ofNat (n + 1)) := by
  simp only [numbered, List.range_succ, List.map_append, List.flatten_append, List.map_cons,
    List.map_nil, List.flatten_cons, List.flatten_nil, List.append_nil]

theorem length_numbered (n : ℕ) : (numbered n).flatten.length = n * 512 := by
  induction n with
  | zero => rfl
  | succ n ih =>
    rw [flatten_numbered_succ, List.length_append, ih, List.length_replicate, Nat.succ_mul]

def largeInput : Input where
  name := [97]
  chunks := numbered 137
  chunk_pos c hc := by
    obtain ⟨k, -, rfl⟩ := List.mem_map.1 hc
    rw [List.length_replicate]
    decide
  chunk_le c hc := by
    obtain ⟨k, -, rfl⟩ := List.mem_map.1 hc
    rw [List.length_replicate]

theorem length_largeInput : largeInput.bytes.length = 137 * 512 := length_numbered 137

theorem fits_largeInput : Fits [largeInput] := by
  refine ⟨fun g hg => ?_, fun g hg => ?_, ?_⟩
  · rw [List.mem_singleton.1 hg]
    decide
  · rw [List.mem_singleton.1 hg, length_largeInput]
    decide
  · rw [need]
    simp only [List.map_cons, List.map_nil, List.sum_cons, List.sum_nil, length_largeInput]
    decide

theorem drop_largeInput : largeInput.bytes.drop (136 * 512) = List.replicate 512 137 := by
  show (numbered (136 + 1)).flatten.drop (136 * 512) = _
  rw [flatten_numbered_succ, List.drop_left' (length_numbered 136)]
  rfl

section
variable {a : ℕ}

abbrev KeepsInodes {α : Type} (a : ℕ) (x : Op α) : Prop :=
  Prog.Keeps (fun st => st.freeinode = a) (fun _ _ => True) x

theorem keeps_rsect (sec : ℕ) : KeepsInodes a (rsect sec) := by
  constructor
  intro st h
  show Prog.Ends _ _
    ((if sector sec < st.len then .pure (st.disk (sector sec)) else .panic .failed : Op Block).result
      st)
  split
  · exact h
  · trivial

theorem keeps_wsect (sec : ℕ) (buf : Block) : KeepsInodes a (wsect sec buf) :=
  .modify fun _ h => h

theorem keeps_assert (c : Prop) [Decidable c] : KeepsInodes a (assert c) :=
  .ite (.pure ()) (.panic fun _ _ => trivial)

theorem keeps_nextBlock : KeepsInodes a nextBlock := ⟨fun _ h => h⟩

theorem keeps_winode (inum : ℕ) (ip : Dinode) : KeepsInodes a (winode inum ip) :=
  .bind (keeps_rsect _) fun _ => .bind (keeps_wsect _ _) fun _ => .modify fun _ h => h

theorem keeps_rinode (inum : ℕ) : KeepsInodes a (rinode inum) :=
  .bind (keeps_rsect _) fun _ => .pure _

theorem keeps_addrOf (din : Dinode) (k : ℕ) : KeepsInodes a (addrOf din k) :=
  .ite (.bind keeps_nextBlock fun _ => .pure _) (.pure _)

theorem keeps_entryOf (ind k : ℕ) : KeepsInodes a (entryOf ind k) :=
  .bind (keeps_rsect _) fun _ => .ite (.bind keeps_nextBlock fun _ =>
    .bind (keeps_wsect _ _) fun _ => .pure _) (.pure _)

theorem keeps_slotOf (din : Dinode) (fbn : ℕ) : KeepsInodes a (slotOf din fbn) :=
  .ite (keeps_addrOf _ _) (.bind (keeps_addrOf _ _) fun _ =>
    .bind (keeps_entryOf _ _) fun _ => .pure _)

theorem keeps_iappendLoop (turns : ℕ) (din : Dinode) (off : ℕ) (p : List UInt8) :
    KeepsInodes a (iappendLoop turns din off p) := by
  induction turns generalizing din off p with
  | zero => exact .pure _
  | succ turns ih =>
    refine .ite (.pure _) (.bind (keeps_assert _) fun _ => ?_)
    exact .bind (keeps_slotOf _ _) fun _ => .bind (keeps_rsect _) fun _ =>
      .bind (keeps_wsect _ _) fun _ => ih _ _ _

theorem keeps_iappend (inum : ℕ) (p : List UInt8) : KeepsInodes a (iappend inum p) :=
  .bind (keeps_rinode _) fun _ => .bind (keeps_iappendLoop _ _ _ _) fun _ => keeps_winode _ _

theorem keeps_appendChunks (inum : ℕ) (cs : List (List UInt8)) :
    KeepsInodes a (appendChunks inum cs) := by
  induction cs with
  | nil => exact .pure _
  | cons c cs ih => exact .bind (keeps_iappend _ _) fun _ => ih

theorem keeps_wipe (l : List ℕ) : KeepsInodes a (wipe l) := by
  induction l with
  | nil => exact .pure _
  | cons i l ih => exact .bind (keeps_wsect _ _) fun _ => ih

abbrev TakesInodes {α : Type} (n a : ℕ) (x : Op α) : Prop :=
  Triple (fun st => st.freeinode = a) x (fun _ st => st.freeinode = a + n) fun _ _ => True

theorem takes_ialloc (type : ℕ) : TakesInodes 1 a (ialloc type) := by
  refine .bind (R := fun _ st => st.freeinode = a + 1) ⟨fun st h => congrArg (· + 1) h⟩ fun inum => ?_
  exact .bind (keeps_winode _ _) fun _ => .pure fun _ h => h

theorem takes_addFile (f : Input) : TakesInodes 1 a (addFile f) :=
  .bind (keeps_assert _) fun _ => .bind (takes_ialloc _) fun _ =>
    .bind (keeps_iappend _ _) fun _ => keeps_appendChunks _ _

theorem takes_addFiles (files : List Input) : TakesInodes files.length a (addFiles files) := by
  induction files generalizing a with
  | nil => exact .pure fun _ h => h
  | cons f files ih =>
    refine .bind (takes_addFile f) fun _ => ih.post fun _ st h => ?_
    rw [h, List.length_cons]
    omega

theorem takes_mkfs (files : List Input) : TakesInodes (files.length + 1) a (mkfs files) := by
  refine .bind (keeps_wipe _) fun _ => .bind (keeps_wsect _ _) fun _ => ?_
  have hroot : TakesInodes 1 a makeRoot :=
    .bind (takes_ialloc _) fun _ => .bind (keeps_assert _) fun _ =>
      .bind (keeps_iappend _ _) fun _ => keeps_iappend _ _
  refine .bind hroot fun _ => .bind (takes_addFiles files) fun _ => ?_
  have hfix : KeepsInodes (a + 1 + files.length) fixRoot :=
    .bind (keeps_rinode _) fun _ => keeps_winode _ _
  refine .bind hfix fun _ => .bind (Prog.Keeps.read _) fun used => ?_
  refine .bind (keeps_assert _) fun _ => .modify fun st h => ?_
  show st.freeinode = a + (files.length + 1)
  omega

theorem freeinode_mkfs {files : List Input} {st : Img}
    (hok : (mkfs files).result .start = (.ok (), st)) : st.freeinode = files.length + 2 := by
  have h := (takes_mkfs (a := 1) files).of_ok rfl hok
  omega

end

structure WithinLayout (st : Img) : Prop where
  inodes : ∀ i, 0 < i → i < st.freeinode → i < sb.ninodes
  addrs : ∀ i < st.freeinode, ∀ k ≤ NDIRECT, (sb.dinode st.disk i).addrs k ≠ 0 →
    sb.nmeta ≤ (sb.dinode st.disk i).addrs k ∧ (sb.dinode st.disk i).addrs k < sb.size
  entries : ∀ i < st.freeinode, (sb.dinode st.disk i).addrs NDIRECT ≠ 0 → ∀ k < NINDIRECT,
    word (st.disk ((sb.dinode st.disk i).addrs NDIRECT)) k ≠ 0 →
      sb.nmeta ≤ word (st.disk ((sb.dinode st.disk i).addrs NDIRECT)) k ∧
        word (st.disk ((sb.dinode st.disk i).addrs NDIRECT)) k < sb.size
  written : ∀ b ∈ st.inodeBlocks, sb.inodestart ≤ b ∧ b < sb.bmapstart

theorem withinLayout_of_le {files : List Input} {st : Img} (hn : files.length + 2 ≤ sb.ninodes)
    (hok : (mkfs files).result .start = (.ok (), st)) : WithinLayout st := by
  obtain ⟨I, Φ, h⟩ := (mkfs_spec (hn.trans (by decide))).of_ok rfl hok
  have hcore := h.narrow hn
  have hlt : ∀ i < st.freeinode, i < sb.ninodes := fun i hi =>
    (hi.trans_eq h.freeinode).trans_le hn
  have htype : ∀ i < st.freeinode, ∀ k, (table I i).addrs k ≠ 0 → (table I i).type ≠ 0 := by
    intro i hi k hk ht
    by_cases hroot : i = ROOTINO
    · rw [hroot, table, update_self] at ht
      exact absurd (h.made.root_type.symm.trans ht) (by decide)
    rw [table, update_of_ne hroot] at ht hk
    by_cases hi2 : i < 2
    · rw [h.made.free i hroot (.inl hi2)] at hk
      exact hk rfl
    rw [h.freeinode] at hi
    obtain ⟨j, rfl⟩ : ∃ j, i = j + 2 := ⟨i - 2, by omega⟩
    have hj : j < files.length := by omega
    have hfile : (I (j + 2)).type = T_FILE :=
      congrArg Dinode.type (h.made.file j _ (List.getElem?_eq_getElem hj)).1
    exact absurd (hfile.symm.trans ht) (by decide)
  refine ⟨fun i _ hi => hlt i hi, fun i hi k hk hne => ?_, fun i hi hind k hk hne => ?_, h.written⟩
  · have hin := hlt i hi
    rw [h.dinode (hin.trans (by decide))] at hne ⊢
    have ht := htype i hi k hne
    refine hcore.range _ (Multiset.mem_add.2 (.inl ?_))
    rcases hk.lt_or_eq with hk | rfl
    · rw [← show slot (table I i) st.disk k = _ from slot_of_lt hk] at hne ⊢
      exact slot_mem_total hin ht (hk.trans (by decide)) hne
    · exact indirect_mem_total hin ht hne
  · have hin := hlt i hi
    rw [h.dinode (hin.trans (by decide))] at hind hne ⊢
    have ht := htype i hi _ hind
    have hmax : NDIRECT + k < MAXFILE := Nat.add_lt_add_left hk NDIRECT
    have hslot : slot (table I i) st.disk (NDIRECT + k) =
        word (st.disk ((table I i).addrs NDIRECT)) k := by
      rw [slot_of_le (Nat.le_add_right _ _) hmax hind, Nat.add_sub_cancel_left]
    rw [← hslot] at hne ⊢
    exact hcore.range _ (Multiset.mem_add.2 (.inl (slot_mem_total hin ht hmax hne)))

theorem mkfs_within_layout {files : List Input} {st : Img}
    (hok : (mkfs files).result .start = (.ok (), st)) :
    WithinLayout st ↔ files.length + 2 ≤ sb.ninodes := by
  refine ⟨fun hlayout => ?_, fun hn => withinLayout_of_le hn hok⟩
  have hlt := hlayout.inodes (files.length + 1) (Nat.succ_pos _) (by
    rw [freeinode_mkfs hok]
    exact Nat.lt_succ_self _)
  exact hlt

theorem mkfs_within_layout_large :
    ∃ st, (mkfs [largeInput]).result .start = (.ok (), st) ∧ WithinLayout st := by
  obtain ⟨st, -, -, hres, -⟩ := mkfs_returns [largeInput] (by decide) fits_largeInput
  exact ⟨st, hres, (mkfs_within_layout hres).2 (by decide)⟩

theorem mkfs_passes_ninodes :
    ∃ st, (mkfs (List.replicate 199 emptyInput)).result .start = (.ok (), st) ∧
      ¬WithinLayout st := by
  have hlen : (List.replicate 199 emptyInput).length = 199 := List.length_replicate
  obtain ⟨st, I, Φ, hres, h⟩ := mkfs_returns _ (by rw [hlen]; decide) (fits_empty (by decide))
  refine ⟨st, hres, fun hlayout => ?_⟩
  have hlt := hlayout.inodes 200 (by decide) (by rw [h.freeinode, hlen]; decide)
  exact absurd hlt (by decide)

def NoHole (st : Img) : Prop :=
  ∀ k < cdiv (sb.dinode st.disk ROOTINO).size,
    slot (sb.dinode st.disk ROOTINO) st.disk k ≠ 0 ∧
      sb.inUse st.disk (slot (sb.dinode st.disk ROOTINO) st.disk k) = true

section
variable {files : List Input} {I : ℕ → Dinode} {Φ : ℕ → ℕ → Block} {st : Img}

section
variable (h : Done files I Φ st) (hn : files.length + 2 ≤ NINODES)
  (hmod : (files.length + 2) % 32 ≠ 0)
include h hn hmod

theorem Done.blocks : (fun i => cdiv (table I i).size) = fun i => cdiv (I i).size := by
  funext i
  by_cases hi : i = ROOTINO
  · rw [hi, ← h.dinode (by decide), h.root_size (hn.trans (by decide)), h.made.root_size]
    unfold cdiv
    simp only [BSIZE]
    omega
  · rw [table, update_of_ne hi]

theorem Done.settled : Settled sb (table I) Φ (.boot st.disk) := by
  rw [Settled, h.blocks hn hmod]
  exact h.narrow hn

theorem Done.used : used sb (table I) (fun i => cdiv (table I i).size) = need files := by
  have hcard := (h.settled hn hmod).card_total
  rw [← hcard, ← total_area (fun i hi => congrArg Dinode.type (h.free (hn.trans hi))),
    ← h.made.used]
  have hrest := h.core.card_total
  refine hrest.trans ?_
  unfold Fs.used
  refine Finset.sum_congr rfl fun i _ => ?_
  by_cases hi : i = ROOTINO
  · rw [hi, update_self]
    rfl
  · rw [update_of_ne hi]

end

theorem Done.table_file (h : Done files I Φ st) {j : ℕ} {f : Input} (hj : files[j]? = some f) :
    (table I (j + 2)).type = T_FILE ∧ (table I (j + 2)).size = f.bytes.length := by
  have hne : j + 2 ≠ ROOTINO := by
    simp only [ROOTINO]
    omega
  have hfile := (h.made.file j f hj).1
  rw [table, update_of_ne hne]
  exact ⟨congrArg Dinode.type hfile, congrArg Dinode.size hfile⟩

theorem Done.table_root (h : Done files I Φ st) : (table I ROOTINO).type = T_DIR := by
  rw [table, update_self]
  exact h.made.root_type

end

theorem Done.noHole {files : List Input} {I : ℕ → Dinode} {Φ : ℕ → ℕ → Block} {st : Img}
    (h : Done files I Φ st) (hn : files.length + 2 ≤ NINODES)
    (hmod : (files.length + 2) % 32 ≠ 0) : NoHole st := by
  intro k hk
  have hsettled := h.settled hn hmod
  have hroot : ROOTINO < sb.ninodes := by decide
  have htype : (table I ROOTINO).type ≠ 0 := h.table_root ▸ by decide
  rw [h.dinode (show ROOTINO < area.ninodes by decide)] at hk ⊢
  have hfill := hsettled.filled ROOTINO hroot htype
  have hmax : k < MAXFILE := hk.trans_le hfill.le
  have hne := (hfill.slots k hmax).2 hk
  have hmem : slot (table I ROOTINO) st.disk k ∈ total sb (table I) st.disk + 0 :=
    Multiset.mem_add.2 (.inl (slot_mem_total hroot htype hmax hne))
  exact ⟨hne, (hsettled.bits _ (hsettled.range _ hmem).2).2 (.inr hmem)⟩

theorem Done.hole {files : List Input} {I : ℕ → Dinode} {Φ : ℕ → ℕ → Block} {st : Img}
    (h : Done files I Φ st) (hn : files.length + 2 ≤ area.ninodes)
    (hmod : (files.length + 2) % 32 = 0) : ¬NoHole st := by
  have hnin : area.ninodes = 208 := rfl
  have hroot : ROOTINO < area.ninodes := by decide
  have hfill := h.core.filled ROOTINO hroot (h.table_root ▸ by decide)
  have hk : (files.length + 2) / 32 < cdiv (sb.dinode st.disk ROOTINO).size := by
    rw [h.root_size hn]
    unfold cdiv
    simp only [BSIZE]
    omega
  intro hno
  have hslot := (hno _ hk).1
  rw [h.dinode hroot] at hslot
  have hlt := (hfill.slots _ (by simp only [MAXFILE, NDIRECT, NINDIRECT, BSIZE]; omega)).1 hslot
  rw [h.made.root_size] at hlt
  unfold cdiv at hlt
  simp only [BSIZE] at hlt
  omega

theorem mkfs_no_hole (files : List Input) (hn : files.length + 2 ≤ sb.ninodes)
    (hfits : Fits files) :
    ∃ st, (mkfs files).result .start = (.ok (), st) ∧
      (NoHole st ↔ (files.length + 2) % 32 ≠ 0) ∧
      ((files.length + 2) % 32 ≠ 0 →
        (∀ dev off n, ∃ r,
          (readi sb dev ROOTINO off n).result (kernel st ROOTINO) = (.ok r, kernel st ROOTINO)) ∧
        ∀ dev src off n r s, src.length = n.toNat →
          (writei sb dev ROOTINO src off n).result (kernel st ROOTINO) = (.ok r, s) →
          sb.dinode s.disk ROOTINO = s.inode ROOTINO) := by
  obtain ⟨st, I, Φ, hres, h⟩ := mkfs_returns files (hn.trans (by decide)) hfits
  refine ⟨st, hres, ⟨fun hno hmod => h.hole (hn.trans (by decide)) hmod hno, h.noHole hn⟩,
    fun hmod => ?_⟩
  have hroot : ROOTINO < sb.ninodes := by decide
  have htype : (table I ROOTINO).type ≠ 0 := h.table_root ▸ by decide
  have hdev : (table I ROOTINO).type ≠ T_DEV := h.table_root ▸ by decide
  have hload : Settled sb (table I) Φ (kernel st ROOTINO) := by
    rw [kernel, h.dinode (show ROOTINO < area.ninodes by decide)]
    exact (h.settled hn hmod).load htype
  have hvalid : (kernel st ROOTINO).valid ROOTINO = true := State.load_valid ..
  constructor
  · intro dev off n
    obtain ⟨r, t, hr, -, rfl⟩ := (readi_spec hload hroot hvalid hdev dev).returns rfl
    exact ⟨r, hr⟩
  · intro dev src off n r s hsrc hw
    have hspec := (writei_spec hload hroot hvalid hdev hsrc dev).of_ok rfl hw
    have hkeep : Beside ROOTINO (kernel st ROOTINO) s :=
      (keeps_writei dev src off n).of_ok ⟨rfl, rfl, fun _ _ => rfl⟩ hw
    have hv : s.valid ROOTINO = true := hkeep.valid ▸ hvalid
    rcases hspec with ⟨-, -, rfl⟩ | ⟨-, -, x, -, hs, -⟩
    · rw [hload.disk ROOTINO hroot, (hload.cache ROOTINO hroot (Option.some_ne_none _) hv).1]
    · rw [hs.disk ROOTINO hroot, (hs.cache ROOTINO hroot (Option.some_ne_none _) hv).1]

theorem mkfs_no_hole_large :
    ∃ st, (mkfs [largeInput]).result .start = (.ok (), st) ∧ NoHole st := by
  obtain ⟨st, hres, hno, -⟩ := mkfs_no_hole [largeInput] (by decide) fits_largeInput
  exact ⟨st, hres, hno.2 (by decide)⟩

theorem mkfs_hole :
    ∃ st, (mkfs (List.replicate 30 emptyInput)).result .start = (.ok (), st) ∧ ¬NoHole st := by
  have hlen : (List.replicate 30 emptyInput).length = 30 := List.length_replicate
  obtain ⟨st, I, Φ, hres, h⟩ := mkfs_returns (.replicate 30 emptyInput)
    (by rw [hlen]; decide) (fits_empty (by decide))
  exact ⟨st, hres, h.hole (by rw [hlen]; decide) (by rw [hlen])⟩

section
variable {files : List Input} {I : ℕ → Dinode} {Φ : ℕ → ℕ → Block} {st : Img}

theorem Done.count_eq_one (h : Done files I Φ st) (hn : files.length + 2 ≤ NINODES) {b : ℕ}
    (hlo : sb.nmeta ≤ b) (hhi : b < st.freeblock) :
    (total sb (sb.dinode st.disk) st.disk).count b = 1 := by
  have hcore := h.narrow hn
  have hsize : b < sb.size := hhi.trans_le h.le
  have htotal : total sb (sb.dinode st.disk) st.disk = total sb (table I) st.disk := by
    unfold total
    refine Finset.sum_congr rfl fun i hi => ?_
    rw [h.dinode ((Finset.mem_range.1 hi).trans (by decide))]
  have hin : sb.inUse st.disk b = true := (h.bits b hsize).trans (decide_eq_true hhi)
  have hmem := ((hcore.bits b hsize).1 hin).resolve_left (not_lt.2 hlo)
  have hnd := hcore.nodup
  rw [add_zero] at hmem hnd
  rw [htotal]
  exact Multiset.count_eq_one_of_mem hnd hmem

theorem Done.readi (h : Done files I Φ st) (hn : files.length + 2 ≤ NINODES) {j : ℕ} {f : Input}
    (hj : files[j]? = some f) (dev : Option (List UInt8)) (off n : UInt32) :
    (Fs.readi sb dev (j + 2) off n).result (kernel st (j + 2)) =
      (.ok (if f.bytes.length < off.toNat ∨ off + n < off then none
        else some ((f.bytes.drop off.toNat).take n.toNat)), kernel st (j + 2)) := by
  have hjl : j < files.length := (List.getElem?_eq_some_iff.1 hj).1
  have hne : j + 2 ≠ ROOTINO := by
    simp only [ROOTINO]
    omega
  have hlt : j + 2 < sb.ninodes := lt_of_lt_of_le (Nat.add_lt_add_right hjl 2) hn
  obtain ⟨hfile, hbytes⟩ := h.made.file j f hj
  have htable : table I (j + 2) = I (j + 2) := update_of_ne hne _ _
  have htype : (I (j + 2)).type = T_FILE := congrArg Dinode.type hfile
  have hsize : (I (j + 2)).size = f.bytes.length := congrArg Dinode.size hfile
  have hcore := (h.narrow hn).load (w := j + 2) (by rw [htable, htype]; decide)
  rw [htable, ← htable, ← h.dinode (hlt.trans (by decide))] at hcore
  have hwork := hcore.work hlt (State.load_valid ..)
  have hspec : Triple (· = kernel st (j + 2)) (Fs.readi sb dev (j + 2) off n) _ _ :=
    hwork.readi (by rw [htable]; exact le_cdiv_mul _) (by rw [htable, htype]; decide) dev
  obtain ⟨r, t, hres, hr, ht⟩ := hspec.returns rfl
  rw [hr, ht, htable, hsize] at hres
  refine hres.trans ?_
  congr 2
  by_cases hout : f.bytes.length < off.toNat ∨ off + n < off
  · rw [if_pos hout, if_pos hout]
  rw [if_neg hout, if_neg hout]
  rw [not_or, not_lt] at hout
  rw [stream_part hbytes (by omega)]
  by_cases hle : n.toNat ≤ f.bytes.length - off.toNat
  · rw [min_eq_left hle]
  · rw [min_eq_right (by omega), List.take_of_length_le (by rw [List.length_drop]),
      List.take_of_length_le (by rw [List.length_drop]; omega)]

end

theorem mkfs_agrees (files : List Input) (hn : files.length + 2 ≤ NINODES) (hfits : Fits files) :
    ∃ st, (mkfs files).result .start = (.ok (), st) ∧
      (∀ j f, files[j]? = some f → (sb.dinode st.disk (j + 2)).size = f.bytes.length ∧
        ∀ dev off n, (readi sb dev (j + 2) off n).result (kernel st (j + 2)) =
          (.ok (if f.bytes.length < off.toNat ∨ off + n < off then none
            else some ((f.bytes.drop off.toNat).take n.toNat)), kernel st (j + 2))) ∧
      (∀ b, getBit (st.disk sb.bmapstart) b = decide (b < st.freeblock)) ∧
      ∀ b, sb.nmeta ≤ b → b < st.freeblock →
        (total sb (sb.dinode st.disk) st.disk).count b = 1 := by
  obtain ⟨st, I, Φ, hres, h⟩ := mkfs_returns files (hn.trans (by decide)) hfits
  refine ⟨st, hres, fun j f hj => ⟨?_, fun dev off n => h.readi hn hj dev off n⟩, fun b => ?_,
    fun b hlo hhi => h.count_eq_one hn hlo hhi⟩
  · have hjl : j < files.length := (List.getElem?_eq_some_iff.1 hj).1
    have hne : j + 2 ≠ ROOTINO := by
      simp only [ROOTINO]
      omega
    have hlt : j + 2 < NINODES := by omega
    rw [h.dinode (hlt.trans (by decide)), table, update_of_ne hne]
    exact congrArg Dinode.size (h.made.file j f hj).1
  · rw [h.map]
    exact getBit_bitmap (h.le.trans (by decide)) b

theorem mkfs_agrees_large :
    ∃ st, (mkfs [largeInput]).result .start = (.ok (), st) ∧
      (sb.dinode st.disk 2).size = 137 * 512 ∧
      (readi sb none 2 69632 600).result (kernel st 2) =
        (.ok (some (List.replicate 512 137)), kernel st 2) := by
  obtain ⟨st, hres, hfiles, -⟩ := mkfs_agrees [largeInput] (by decide) fits_largeInput
  obtain ⟨hsize, hread⟩ := hfiles 0 largeInput rfl
  refine ⟨st, hres, hsize.trans length_largeInput, (hread none 69632 600).trans ?_⟩
  rw [length_largeInput, if_neg (by decide),
    show (69632 : UInt32).toNat = 136 * 512 from rfl, drop_largeInput,
    List.take_of_length_le (by rw [List.length_replicate]; decide)]

end Xv6.Mkfs
