import Xv6.Fs.Walk
import Xv6.Mkfs.Sound

/-!
A file system with any root directory.

On a blank disk there are a root directory and a file, and entries are written
to the directory, as many as a directory can have.
-/

namespace Xv6.Mkfs

open Lib Fs Function

def entryBytes (f : ℕ → List UInt8) (n : ℕ) : List UInt8 := (List.range n).flatMap f

section
variable {f : ℕ → List UInt8} {n : ℕ}

theorem length_entryBytes (hf : ∀ k, (f k).length = 16) (n : ℕ) :
    (entryBytes f n).length = 16 * n := by
  induction n with
  | zero => rfl
  | succ n ih =>
    rw [entryBytes, List.range_succ, List.flatMap_append, List.length_append]
    rw [entryBytes] at ih
    rw [ih, List.flatMap_cons, List.flatMap_nil, List.append_nil, hf]
    omega

theorem stream_entryBytes {φ : ℕ → Block} (hf : ∀ k, (f k).length = 16)
    (h : stream φ 0 (16 * n) = entryBytes f n) {k : ℕ} (hk : k < n) :
    stream φ (16 * k) 16 = f k := by
  induction n with
  | zero => exact absurd hk (Nat.not_lt_zero k)
  | succ n ih =>
    have hlen := length_entryBytes hf n
    rw [Nat.mul_succ, stream_add, Nat.zero_add, entryBytes, List.range_succ,
      List.flatMap_append, List.flatMap_cons, List.flatMap_nil, List.append_nil] at h
    obtain ⟨hinit, hlast⟩ := List.append_inj h ((length_stream ..).trans hlen.symm)
    rcases Nat.lt_succ_iff_lt_or_eq.1 hk with hlt | rfl
    · exact ih hinit hlt
    · exact hlast

end

def emptyRoot (links : ℕ) : State :=
  (((State.boot Img.blank.full).write (sb.iblock ROOTINO)
    (putDinode · (ROOTINO % IPB) (newInode T_DIR))).write (sb.iblock 2)
    (putDinode · (2 % IPB) { newInode T_FILE with nlink := links })).load ROOTINO (newInode T_DIR)

def withRoot (links : ℕ) (f : ℕ → List UInt8) (n : ℕ) : State :=
  ((writei sb none ROOTINO (entryBytes f n) 0 (.ofNat (16 * n))).result (emptyRoot links)).2

structure Directory (links : ℕ) (f : ℕ → List UInt8) (n : ℕ) (I : ℕ → Dinode)
    (Φ : ℕ → ℕ → Block) (s : State) : Prop where
  settled : Settled sb I Φ s
  valid : s.valid ROOTINO = true
  root : (I ROOTINO).type = T_DIR ∧ (I ROOTINO).size = 16 * n ∧ (I ROOTINO).nlink = 1
  content : Φ ROOTINO = splice (fun _ => zeros) 0 (entryBytes f n)
  file : (I 2).type = T_FILE ∧ (I 2).nlink = links
  free : ∀ i, i ≠ ROOTINO → i ≠ 2 → (I i).type = 0
  used : used sb I (fun i => cdiv (I i).size) = blks (cdiv (16 * n))

theorem exists_directory (links : ℕ) {f : ℕ → List UInt8} (hf : ∀ k, (f k).length = 16) {n : ℕ}
    (hlinks : links < 2 ^ 16) (hhi : 16 * n ≤ MAXFILE * BSIZE) :
    ∃ I Φ, Directory links f n I Φ (withRoot links f n) := by
  obtain ⟨y, hy⟩ : ∃ y, y = { newInode T_FILE with nlink := links } := ⟨_, rfl⟩
  have hytype : y.type = T_FILE := by rw [hy]; rfl
  have hysize : y.size = 0 := by rw [hy]; rfl
  have hyf : y.Fits := by
    have hnew : (newInode T_FILE).Fits := newInode_fits (by decide)
    rw [hy]
    exact ⟨hnew.type, hnew.major, hnew.minor, hlinks, hnew.size, hnew.addrs, hnew.past⟩
  have hroot : ROOTINO < sb.ninodes := by decide
  have hmade := (settled_sb.adopt (w := ROOTINO) (x := newInode T_DIR) hroot rfl (by decide)
    (newInode_fits (by decide)) rfl rfl).adopt (w := 2) (x := y) (by decide) rfl
    (by rw [hytype]; decide) hyf hysize (by rw [hy]; rfl)
  obtain ⟨I, hI⟩ : ∃ I, I = update (update (fun _ => Dinode.new 0) ROOTINO (newInode T_DIR)) 2 y :=
    ⟨_, rfl⟩
  rw [← hI] at hmade
  have hIroot : I ROOTINO = newInode T_DIR := by rw [hI]; rfl
  have hI2 : I 2 = y := by rw [hI]; rfl
  have hfree : ∀ i, i ≠ ROOTINO → i ≠ 2 → I i = .new 0 := fun i hi hi2 => by
    rw [hI, update_of_ne hi2, update_of_ne hi]
  have hempty : (fun i => cdiv (I i).size) = fun _ => 0 := by
    funext i
    by_cases hi : i = ROOTINO
    · rw [hi, hIroot]
      rfl
    by_cases hi2 : i = 2
    · rw [hi2, hI2, hysize]
      rfl
    · rw [hfree i hi hi2]
      rfl
  have hload := hmade.load (w := ROOTINO) (by rw [hIroot]; decide)
  have hlen := length_entryBytes hf n
  have hnat : (UInt32.ofNat (16 * n)).toNat = 16 * n :=
    UInt32.toNat_ofNat_of_lt (hhi.trans_lt (by decide))
  have hused : used sb I (fun _ => 0) = 0 := by
    unfold used
    exact Finset.sum_eq_zero fun _ _ => ite_self _
  have hgrow := used_grow (c := fun _ => 0) hroot
    (show (I ROOTINO).type ≠ 0 by rw [hIroot]; decide) (cdiv (16 * n))
  rw [hused, show blks 0 = 0 by decide] at hgrow
  have hwrite : Triple (· = emptyRoot links)
      (writei sb none ROOTINO (entryBytes f n) 0 (.ofNat (16 * n))) _ _ :=
    ((writei_spec hload hroot (State.load_valid ..) (by rw [hIroot]; decide)
      (hlen.trans hnat.symm) none).and (keeps_writei ..)).pre
      fun s hs => by
        rw [hs, hIroot, hy]
        exact ⟨rfl, rfl, rfl, fun _ _ => rfl⟩
  rw [hnat, show (0 : UInt32).toNat = 0 from rfl, hempty, hIroot,
    show (newInode T_DIR).size = 0 from rfl, Nat.zero_add,
    show max (cdiv 0) (cdiv (16 * n)) = cdiv (16 * n) from Nat.zero_max _] at hwrite
  have hfits : blks (cdiv (16 * n)) ≤ sb.nblocks :=
    (blks_mono (cdiv_mono hhi)).trans (by decide)
  obtain ⟨r, s, hres, hs, hside⟩ := hwrite.returns_of (fun e t he => by
    have := he.1.2.2.1
    omega) rfl
  have hok : ¬Refused (newInode T_DIR) 0 (16 * n) := by
    rintro (hgap | hbig)
    · exact absurd hgap (Nat.not_lt_zero _)
    · omega
  obtain ⟨-, -, x, hx, hset, -⟩ := hs.resolve_left fun hrefused => hok hrefused.1
  have hstate : withRoot links f n = s := congrArg Prod.snd hres
  have hxsize : x.size = 16 * n := by
    rw [hx]
    exact Nat.zero_max _
  have hxtype : x.type = T_DIR := by
    rw [hx]
    rfl
  rw [hstate]
  have hother : ∀ i, i ≠ ROOTINO → update I ROOTINO x i = I i := fun i hi => update_of_ne hi ..
  have hself : update I ROOTINO x ROOTINO = x := update_self ..
  refine ⟨_, _, hset, ?_, ?_, ?_, ?_, fun i hi hi2 => ?_, ?_⟩
  · rw [hside.valid]
    rfl
  · rw [hself, hxsize, hxtype, hx]
    exact ⟨rfl, rfl, rfl⟩
  · rw [update_self]
    rfl
  · rw [hother 2 (by decide), hI2, hytype, hy]
    exact ⟨rfl, rfl⟩
  · rw [hother i hi, hfree i hi hi2]
    rfl
  · rw [cdiv_stretch (show x.size = max (I ROOTINO).size (16 * n) by
        rw [hxsize, hIroot]; exact (Nat.zero_max _).symm),
      used_addrs hroot (by rw [hxtype, hIroot]; rfl), hempty, hIroot,
      show max (cdiv (newInode T_DIR).size) (cdiv (16 * n)) = cdiv (16 * n) from Nat.zero_max _]
    omega

variable {links : ℕ} {f : ℕ → List UInt8} {n : ℕ} {I : ℕ → Dinode} {Φ : ℕ → ℕ → Block} {s : State}
  (h : Directory links f n I Φ s)
include h

theorem Directory.isDir : IsDir sb I ROOTINO n :=
  ⟨by decide, h.root.1, h.root.2.1⟩

theorem Directory.entry (hf : ∀ k, (f k).length = 16) {k : ℕ}
    (hk : k < n) : stream (Φ ROOTINO) (16 * k) 16 = f k := by
  refine stream_entryBytes hf ?_ hk
  rw [h.content, ← length_entryBytes hf n]
  exact stream_splice (by decide)

theorem Directory.wellFormed (hf : ∀ k, (f k).length = 16)
    (hlinks : links ≠ 0) (hinum : ∀ k < n, direntInum (f k) < 200) {t : State}
    (ht : Settled sb I Φ t) : WellFormed sb I Φ t := by
  have hdir : ∀ i, (I i).type = T_DIR → i = ROOTINO := by
    intro i hi
    by_contra hne
    by_cases hi2 : i = 2
    · rw [hi2, h.file.1] at hi
      exact absurd hi (by decide)
    · rw [h.free i hne hi2] at hi
      exact absurd hi (by decide)
  refine ⟨ht, fun i _ ht hlink => ?_, by decide, fun i _ hi => ?_, fun i _ hi k hk _ => ?_⟩
  · by_cases hroot : i = ROOTINO
    · rw [hroot, h.root.2.2] at hlink
      exact absurd hlink Nat.one_ne_zero
    · by_cases hi2 : i = 2
      · rw [hi2, h.file.2] at hlink
        exact absurd hlink hlinks
      · exact absurd (h.free i hroot hi2) ht
  · rw [hdir i hi, h.root.2.1]
    omega
  · rw [hdir i hi] at hk ⊢
    rw [h.root.2.1, Nat.mul_div_cancel_left _ (by decide)] at hk
    rw [Fs.inumAt, h.entry hf hk]
    exact hinum k hk

end Xv6.Mkfs
