import Xv6.Vm.Image

namespace Xv6.Vm

open Lib
open Multiset (card)

section
variable (c : List UInt8)

def progHeaders : ℕ → ℕ → Option (List Proghdr)
  | 0, _ => some []
  | n + 1, off =>
    match (readHeader c off 32).map Proghdr.ofBytes with
    | none => none
    | some ph => (progHeaders n ((off + 32) % 2 ^ 32)).map (ph :: ·)

def segments (hs : List Proghdr) : List Proghdr := hs.filter (·.type = ELF_PROG_LOAD)

def Proghdr.top (ph : Proghdr) : ℕ := ph.vaddr + ph.memsz

def Proghdr.Covers (ph : Proghdr) (va : ℕ) : Prop := ph.vaddr ≤ va ∧ va < ph.vaddr + ph.filesz

instance (ph : Proghdr) (va : ℕ) : Decidable (ph.Covers va) :=
  inferInstanceAs (Decidable (_ ∧ _))

def imageSize (segs : List Proghdr) : ℕ := (segs.map Proghdr.top).foldl max 0

def imageByte (segs : List Proghdr) (va : ℕ) : UInt8 :=
  match segs.reverse.find? (·.Covers va) with
  | some ph => c.getD (ph.off + (va - ph.vaddr)) 0
  | none => 0

def lay (φ : ℕ → UInt8) (ph : Proghdr) : ℕ → UInt8 :=
  overlay φ ph.vaddr ((c.drop ph.off).take ph.filesz)

structure Proghdr.Fits (ph : Proghdr) : Prop where
  size : ph.filesz ≤ ph.memsz
  top : ph.top < KERNBASE
  file : ph.filesz = 0 ∨ ph.off + ph.filesz ≤ c.length

structure Proghdr.Accepted (ph : Proghdr) : Prop where
  fits : ph.Fits c
  aligned : ph.vaddr % PGSIZE = 0
  nonempty : 0 < ph.top
  word : ph.off + ph.filesz < 2 ^ 32

structure Loadable (elf : Elfhdr) (hs : List Proghdr) : Prop where
  header : (readHeader c 0 52).map Elfhdr.ofBytes = some elf
  magic : elf.magic = ELF_MAGIC
  headers : progHeaders c elf.phnum elf.phoff = some hs
  segs : ∀ ph ∈ segments hs, ph.Accepted c

variable {c} {φ : ℕ → UInt8} {ph : Proghdr} {segs : List Proghdr} {va : ℕ}

theorem lay_of_covers (hf : ph.Fits c) (h : ph.Covers va) :
    lay c φ ph va = c.getD (ph.off + (va - ph.vaddr)) 0 := by
  obtain ⟨hlo, hhi⟩ := h
  have hfile : ph.off + ph.filesz ≤ c.length := hf.file.resolve_left (by omega)
  have hlen : ((c.drop ph.off).take ph.filesz).length = ph.filesz := by
    rw [List.length_take, List.length_drop]
    omega
  unfold lay overlay
  rw [hlen, if_pos ⟨hlo, hhi⟩, List.getD_eq_getElem?_getD, List.getD_eq_getElem?_getD,
    List.getElem?_take_of_lt (by omega), List.getElem?_drop]

theorem lay_of_not (h : ¬ph.Covers va) : lay c φ ph va = φ va := by
  refine overlay_of_not fun hin => h ⟨hin.1, hin.2.trans_le ?_⟩
  have hle := List.length_take_le ph.filesz (c.drop ph.off)
  omega

theorem foldl_lay (hf : ∀ ph ∈ segs, ph.Fits c) :
    segs.foldl (lay c) φ va =
      match segs.reverse.find? (·.Covers va) with
      | some ph => c.getD (ph.off + (va - ph.vaddr)) 0
      | none => φ va := by
  induction segs generalizing φ with
  | nil => rfl
  | cons ph segs ih =>
    have hrest := fun ph' hph' => hf ph' (List.mem_cons_of_mem ph hph')
    rw [List.foldl_cons, ih hrest, List.reverse_cons, List.find?_append]
    cases segs.reverse.find? (·.Covers va) with
    | some last => rfl
    | none =>
      dsimp only
      rw [Option.none_or]
      by_cases h : ph.Covers va
      · have hfind : [ph].find? (·.Covers va) = some ph :=
          List.find?_cons_of_pos (decide_eq_true h)
        rw [hfind, lay_of_covers (hf ph List.mem_cons_self) h]
      · have hfind : [ph].find? (·.Covers va) = none :=
          List.find?_cons_of_neg (mt of_decide_eq_true h)
        rw [hfind, lay_of_not h]

theorem imageByte_eq (hf : ∀ ph ∈ segs, ph.Fits c) :
    segs.foldl (lay c) (fun _ => 0) va = imageByte c segs va := foldl_lay hf

end

structure Fills (C : ℕ → Bytes PGSIZE) (sz : ℕ) (φ : ℕ → UInt8) : Prop where
  below : ∀ a < roundUp sz * PGSIZE, flat C a = φ a
  above : ∀ a, roundUp sz * PGSIZE ≤ a → φ a = 0

theorem Fills.zero (C : ℕ → Bytes PGSIZE) : Fills C 0 fun _ => 0 :=
  ⟨fun _ ha => absurd ha (Nat.not_lt_zero _), fun _ _ => rfl⟩

theorem le_roundUp_mul (sz : ℕ) : sz ≤ roundUp sz * PGSIZE := by
  unfold roundUp
  simp only [PGSIZE]
  omega

theorem Fills.zeroed {C : ℕ → Bytes PGSIZE} {sz : ℕ} {φ : ℕ → UInt8} (h : Fills C sz φ)
    (newsz : ℕ) :
    Fills (zeroed C (roundUp sz) (roundUp newsz)) (max sz newsz) φ := by
  have hmax : roundUp (max sz newsz) = max (roundUp sz) (roundUp newsz) := by
    rcases le_total sz newsz with hle | hle
    · rw [max_eq_right hle, max_eq_right (roundUp_le hle)]
    · rw [max_eq_left hle, max_eq_left (roundUp_le hle)]
  refine ⟨fun a ha => ?_, fun a ha => h.above a (le_trans ?_ ha)⟩
  · rw [hmax] at ha
    have hpage : a / PGSIZE < max (roundUp sz) (roundUp newsz) :=
      Nat.div_lt_of_lt_mul (by rwa [Nat.mul_comm])
    by_cases hin : roundUp sz ≤ a / PGSIZE ∧ a / PGSIZE < roundUp newsz
    · rw [h.above a (Nat.le_trans (Nat.mul_le_mul_right _ hin.1) (Nat.div_mul_le_self a _)), flat,
        Vm.zeroed, if_pos hin, byte_zeros]
    · rw [flat, Vm.zeroed, if_neg hin]
      refine h.below a ?_
      have hlt : a / PGSIZE < roundUp sz := by omega
      exact (Nat.div_lt_iff_lt_mul (by decide)).1 hlt
  · rw [hmax]
    exact Nat.mul_le_mul_right _ (le_max_left _ _)

theorem Fills.lay {C C' : ℕ → Bytes PGSIZE} {c : List UInt8} {sz : ℕ} {φ : ℕ → UInt8}
    {ph : Proghdr} (h : Fills C sz φ) (hsz : ph.vaddr + ph.filesz ≤ sz)
    (hC : flat C' = overlay (flat C) ph.vaddr ((c.drop ph.off).take ph.filesz)) :
    Fills C' sz (lay c φ ph) := by
  refine ⟨fun a ha => ?_, fun a ha => ?_⟩
  · rw [hC]
    unfold Vm.lay overlay
    rw [h.below a ha]
  · have hle := le_roundUp_mul sz
    rw [lay_of_not fun hcov => by have := hcov.2; omega]
    exact h.above a ha

variable {k : Layout} {F : Prop} {M Y : Multiset ℕ} {m0 : Mem} {d sz : ℕ} {T : ℕ → Option ℕ}
  {P : ℕ → ℕ} {C : ℕ → Bytes PGSIZE} (hM : M.Nodup) (hok : ∀ f ∈ M, k.Ok f) {c : List UInt8}
  {off : ℕ} {ph : Proghdr}

theorem top_eq (hph : (readHeader c off 32).map Proghdr.ofBytes = some ph)
    (h : ¬(ph.vaddr + ph.memsz) % 2 ^ 32 < ph.vaddr) : (ph.vaddr + ph.memsz) % 2 ^ 32 = ph.top := by
  obtain ⟨b, -, rfl⟩ := Option.map_eq_some_iff.1 hph
  have hva : (Proghdr.ofBytes b).vaddr < 2 ^ 32 := getLE_lt b 8 4
  have hmem : (Proghdr.ofBytes b).memsz < 2 ^ 32 := getLE_lt b 20 4
  unfold Proghdr.top
  omega

structure LoadedSegs (k : Layout) (c : List UInt8) (n off sz : ℕ) (φ : ℕ → UInt8) (P : ℕ → ℕ)
    (C : ℕ → Bytes PGSIZE) (sz' : ℕ) (hs : List Proghdr) : Prop where
  space : Space True k P sz'
  headers : progHeaders c n off = some hs
  fits : ∀ ph ∈ segments hs, ph.Fits c
  size : sz' = ((segments hs).map Proghdr.top).foldl max sz
  bytes : Fills C sz' ((segments hs).foldl (lay c) φ)

def NoLoad (F : Prop) (M Y : Multiset ℕ) (c : List UInt8) (n off sz : ℕ) : Prop :=
  ∀ hs, progHeaders c n off = some hs → (∀ ph ∈ segments hs, ph.Accepted c) →
    Short F M (1026 + roundUp (((segments hs).map Proghdr.top).foldl max sz) + card Y)

variable {n : ℕ} {φ : ℕ → UInt8}

section
variable (hph : (readHeader c off 32).map Proghdr.ofBytes = some ph)
include hph

theorem progHeaders_succ {hs : List Proghdr} (h : progHeaders c (n + 1) off = some hs) :
    ∃ rest, progHeaders c n ((off + 32) % 2 ^ 32) = some rest ∧ hs = ph :: rest := by
  rw [progHeaders, hph] at h
  obtain ⟨rest, hrest, rfl⟩ := Option.map_eq_some_iff.1 h
  exact ⟨rest, hrest, rfl⟩

theorem NoLoad.refused (htype : ph.type = ELF_PROG_LOAD) (h : ¬ph.Accepted c) :
    NoLoad F M Y c (n + 1) off sz := by
  intro hs hhs hacc
  obtain ⟨rest, -, rfl⟩ := progHeaders_succ hph hhs
  exact absurd (hacc ph (List.mem_filter.2 ⟨List.mem_cons_self, decide_eq_true htype⟩)) h

theorem NoLoad.skip (htype : ph.type ≠ ELF_PROG_LOAD)
    (h : NoLoad F M Y c n ((off + 32) % 2 ^ 32) sz) : NoLoad F M Y c (n + 1) off sz := by
  intro hs hhs hacc
  obtain ⟨rest, hrest, rfl⟩ := progHeaders_succ hph hhs
  have hsegs : segments (ph :: rest) = segments rest :=
    List.filter_cons_of_neg (mt of_decide_eq_true htype)
  rw [hsegs] at hacc ⊢
  exact h rest hrest hacc

theorem NoLoad.load (htype : ph.type = ELF_PROG_LOAD)
    (h : NoLoad F M Y c n ((off + 32) % 2 ^ 32) (max sz ph.top)) :
    NoLoad F M Y c (n + 1) off sz := by
  intro hs hhs hacc
  obtain ⟨rest, hrest, rfl⟩ := progHeaders_succ hph hhs
  have hsegs : segments (ph :: rest) = ph :: segments rest :=
    List.filter_cons_of_pos (decide_eq_true htype)
  rw [hsegs] at hacc ⊢
  exact h rest hrest fun ph' hph' => hacc ph' (List.mem_cons_of_mem ph hph')

omit hph in
theorem le_foldl_max (l : List ℕ) (a : ℕ) : a ≤ l.foldl max a := by
  induction l generalizing a with
  | nil => exact le_rfl
  | cons b l ih => exact (le_max_left a b).trans (ih _)

theorem NoLoad.short (htype : ph.type = ELF_PROG_LOAD)
    (h : Short F M (1026 + roundUp (max sz ph.top) + card Y)) :
    NoLoad F M Y c (n + 1) off sz := by
  refine .load hph htype fun hs _ _ => h.mono ?_
  have hle := roundUp_le (le_foldl_max ((segments hs).map Proghdr.top) (max sz ph.top))
  omega

end

theorem LoadedSegs.skip {sz' : ℕ} {hs : List Proghdr}
    (hph : (readHeader c off 32).map Proghdr.ofBytes = some ph) (htype : ph.type ≠ ELF_PROG_LOAD)
    (h : LoadedSegs k c n ((off + 32) % 2 ^ 32) sz φ P C sz' hs) :
    LoadedSegs k c (n + 1) off sz φ P C sz' (ph :: hs) := by
  have hsegs : segments (ph :: hs) = segments hs :=
    List.filter_cons_of_neg (mt of_decide_eq_true htype)
  refine ⟨h.space, ?_, hsegs ▸ h.fits, hsegs ▸ h.size, hsegs ▸ h.bytes⟩
  rw [progHeaders, hph]
  exact congrArg (Option.map _) h.headers

theorem LoadedSegs.load {sz' : ℕ} {hs : List Proghdr}
    (hph : (readHeader c off 32).map Proghdr.ofBytes = some ph) (htype : ph.type = ELF_PROG_LOAD)
    (hfit : ph.Fits c)
    (h : LoadedSegs k c n ((off + 32) % 2 ^ 32) (max sz ph.top) (lay c φ ph) P C sz' hs) :
    LoadedSegs k c (n + 1) off sz φ P C sz' (ph :: hs) := by
  have hsegs : segments (ph :: hs) = ph :: segments hs :=
    List.filter_cons_of_pos (decide_eq_true htype)
  refine ⟨h.space, ?_, fun ph' hph' => ?_, hsegs ▸ h.size, hsegs ▸ h.bytes⟩
  · rw [progHeaders, hph]
    exact congrArg (Option.map _) h.headers
  · rw [hsegs] at hph'
    rcases List.mem_cons.1 hph' with rfl | hmem
    · exact hfit
    · exact h.fits ph' hmem
include hM hok

theorem loadSegs_spec (hP : Space True k P sz) (hC : Fills C sz φ) :
    Triple (Holds F M m0 d T P C Y) (loadSegs k d c n off sz)
      (fun r s => ∃ T' P' C', Holds F M m0 d T' P' C' Y s ∧
        match r with
        | none => NoLoad F M Y c n off sz
        | some sz' => (Bare T → Bare T') ∧ ∃ hs, LoadedSegs k c n off sz φ P' C' sz' hs)
      Never := by
  induction n generalizing off sz φ T P C with
  | zero =>
    refine .pure fun s hs => ⟨T, P, C, hs, id, [], hP, rfl, fun _ h => ?_, rfl, hC⟩
    exact absurd h List.not_mem_nil
  | succ n ih =>
    unfold loadSegs
    cases hph : (readHeader c off 32).map Proghdr.ofBytes with
    | none =>
      refine .pure fun s hs => ⟨T, P, C, hs, fun hs hhs => ?_⟩
      rw [progHeaders, hph] at hhs
      exact absurd hhs nofun
    | some ph =>
      dsimp only
      by_cases htype : ph.type ≠ ELF_PROG_LOAD
      · rw [if_pos htype]
        refine (ih hP hC).post fun r s ⟨T', P', C', hs, hr⟩ => ⟨T', P', C', hs, ?_⟩
        cases r with
        | none => exact hr.skip hph htype
        | some sz' =>
          obtain ⟨hbare, hs, hsegs⟩ := hr
          exact ⟨hbare, ph :: hs, hsegs.skip hph htype⟩
      rw [if_neg htype]
      have hload := not_not.1 htype
      have hbad : ∀ {T' P' C'}, ¬ph.Accepted c → Triple (Holds F M m0 d T' P' C' Y)
          (pure none : Op (Option ℕ)) (fun r s => ∃ T' P' C', Holds F M m0 d T' P' C' Y s ∧
            match r with
            | none => NoLoad F M Y c (n + 1) off sz
            | some sz' =>
              (Bare T → Bare T') ∧ ∃ hs, LoadedSegs k c (n + 1) off sz φ P' C' sz' hs)
          Never := fun h => .pure fun s hs => ⟨_, _, _, hs, .refused hph hload h⟩
      refine .ite (fun hsize => hbad fun h => ?_) fun hsize => .ite (fun hwrap => hbad fun h => ?_)
        fun hwrap => ?_
      · exact absurd h.fits.size (not_le.2 hsize)
      · have htop : ph.vaddr + ph.memsz < KERNBASE := h.fits.top
        simp only [KERNBASE] at htop
        omega
      have htop := top_eq hph hwrap
      rw [htop]
      refine .bind (allocuvm_space hM hok hP _) fun r => .of_exists fun T1 =>
        .of_and fun _ => .of_and fun hmore => .ite (fun h0 => ?_) fun h0 => ?_
      · simp only [if_pos h0]
        refine .of_state fun s1 ⟨hs1, hwhy⟩ => .pure fun s heq => ⟨T1, P, C, heq ▸ hs1, ?_⟩
        by_cases hacc : ph.Accepted c
        · have hshort := (hwhy.resolve_left (not_le.2 hacc.fits.top)).resolve_left
            hacc.nonempty.ne'
          rw [hP.card_userPages] at hshort
          refine .short hph hload (hshort.mono ?_)
          have h1 := roundUp_le (le_max_left sz ph.top)
          have h2 := roundUp_le (le_max_right sz ph.top)
          omega
        · exact .refused hph hload hacc
      simp only [if_neg h0]
      refine .of_exists fun P1 => .of_state fun s1 hall => .pre (P := Holds F M m0 d T1 P1
        (zeroed C (roundUp sz) (roundUp ph.top)) Y) ?_ fun _ heq => heq ▸ hall.holds
      refine .ite (fun halign => hbad fun h => halign h.aligned) fun halign => ?_
      have hcover : ∀ x, x * PGSIZE < ph.vaddr + ph.filesz → x < KERNPAGE ∧ Present (P1 x) := by
        intro x hx
        have hlt : x * PGSIZE < r := by
          rw [hall.size]
          unfold Proghdr.top
          omega
        exact ⟨hall.space.lt_KERNPAGE hlt, hall.space.full trivial x hlt⟩
      refine .bind (loaduvm_spec hM hok (not_not.1 halign) hcover) fun b =>
        .of_exists fun C2 => .of_state fun s2 h2 => .pre (P := Holds F M m0 d T1 P1 C2 Y) ?_
        fun _ heq => heq ▸ h2.1
      refine .ite (fun hb => ?_) fun hb => hbad fun h =>
        hb (h2.2.2 (h.fits.file.imp_right fun hfile => ⟨hfile, h.word⟩))
      obtain ⟨hfile, hC2⟩ := h2.2.1 hb
      have hfit : ph.Fits c := ⟨not_lt.1 hsize, hall.new, hfile⟩
      have hle : ph.vaddr + ph.filesz ≤ r := by
        rw [hall.size]
        unfold Proghdr.top
        omega
      have hfill := hall.size ▸ hC.zeroed ph.top
      refine (ih hall.space (hfill.lay hle hC2)).post fun r' s ⟨T', P', C', hs, hr⟩ =>
        ⟨T', P', C', hs, ?_⟩
      rw [hall.size] at hr
      cases r' with
      | none => exact .load hph hload hr
      | some sz' =>
        obtain ⟨hbare, hs, hsegs⟩ := hr
        refine ⟨fun h => hbare (h.more hmore ?_), ph :: hs, hsegs.load hph hload hfit⟩
        exact Nat.div_le_div_right (roundUp_le_KERNPAGE hall.new.le)

structure Program (k : Layout) (c : List UInt8) (im : Loaded) (P : ℕ → ℕ) (C : ℕ → Bytes PGSIZE)
    (elf : Elfhdr) (hs : List Proghdr) : Prop where
  header : (readHeader c 0 52).map Elfhdr.ofBytes = some elf
  entry : im.eip = elf.entry
  segs : LoadedSegs k c elf.phnum elf.phoff 0 (fun _ => 0) P C im.sz hs

omit hM hok in
theorem Program.size_eq {im : Loaded} {elf elf' : Elfhdr} {hs hs' : List Proghdr}
    (h : Program k c im P C elf hs) (h' : Loadable c elf' hs') :
    im.sz = imageSize (segments hs') := by
  obtain rfl := Option.some.inj (h.header.symm.trans h'.header)
  obtain rfl := Option.some.inj (h.segs.headers.symm.trans h'.headers)
  exact h.segs.size

theorem loadImage_spec : Triple (Work F M m0 Y) (loadImage k c)
      (fun r s =>
        match r with
        | none => Work F M m0 Y s ∧ ∀ elf hs, Loadable c elf hs →
            Short F M (1026 + roundUp (imageSize (segments hs)) + card Y)
        | some im => ∃ T P C elf hs, Holds F M m0 im.pgdir T P C Y s ∧ Bare T ∧
            Program k c im P C elf hs)
      Never := by
  unfold loadImage
  cases helf : (readHeader c 0 52).map Elfhdr.ofBytes with
  | none =>
    refine .pure fun s hs => ⟨hs, fun elf' _ h => ?_⟩
    exact absurd (helf.symm.trans h.header) nofun
  | some elf =>
    dsimp only
    have helf' {elf' : Elfhdr} {hs : List Proghdr} (h : Loadable c elf' hs) : elf' = elf :=
      Option.some.inj (h.header.symm.trans helf)
    refine .ite (fun hmagic => .pure fun s hs => ⟨hs, fun elf' _ h => ?_⟩) fun _ =>
      Prog.Triple.bind (setupkvm_spec hM hok) fun r => ?_
    · obtain rfl := helf' h
      exact absurd h.magic hmagic
    cases r with
    | none => exact .pure fun s hs => ⟨hs.1, fun _ _ _ => hs.2.mono (by omega)⟩
    | some d =>
      refine .of_exists fun T => .of_and fun hT => ?_
      refine .bind ((loadSegs_spec hM hok (.zero k) (.zero fun _ => zeros)).pre
        fun s hs => hs.holds_kernel _) fun r => ?_
      refine .of_exists fun T' => .of_exists fun P' => .of_exists fun C' => .of_state
        fun s hr => .pre (P := Holds F M m0 d T' P' C' Y) ?_ fun _ heq => heq ▸ hr.1
      cases r with
      | none =>
        refine .bind ((freevm_spec hM hok).pre fun _ hs => hs.toHas) fun _ =>
          .pure fun _ hs => ⟨hs, fun elf' hs' h => ?_⟩
        obtain rfl := helf' h
        exact hr.2 hs' h.headers h.segs
      | some sz =>
        obtain ⟨-, hbare, hs, hsegs⟩ := hr
        exact .pure fun s hs' =>
          ⟨T', P', C', elf, hs, hs', hbare (bare_of_within hT), helf, rfl, hsegs⟩

end Xv6.Vm
