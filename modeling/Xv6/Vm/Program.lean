import Xv6.Vm.Refine
import Xv6.Vm.Stack

namespace Xv6.Vm

open Lib
open List (getD_eq_getElem length_append length_map map_cons)
open Prod (fst)

section
variable {k : Layout} {c : List UInt8} {l : List ℕ} {s : Phys}

theorem Loadable.loads {elf : Elfhdr} {hs : List Proghdr} (h : Loadable c elf hs)
    (hl : s.Free l) (hnd : l.Nodup) (hok : ∀ f ∈ l, k.Ok f) (hcalm : s.fails = [])
    (hroom : 1026 + roundUp (imageSize (segments hs)) < l.length) :
    ∃ im s', (loadImage k c).result s = (.ok (some im), s') := by
  obtain ⟨r, s', hr, hs'⟩ :=
    (loadImage_spec (Multiset.coe_nodup.2 hnd) hok (c := c)).returns (hl.calm hcalm)
  cases r with
  | none =>
    have hshort := (hs'.2 elf hs h).resolve_left not_false
    rw [Multiset.coe_card, Multiset.card_zero] at hshort
    omega
  | some im => exact ⟨im, s', hr⟩

theorem loader_builds_image (hl : s.Free l) (hnd : l.Nodup) (hok : ∀ f ∈ l, k.Ok f)
    (c : List UInt8) :
    (∃ r s', (loadImage k c).result s = (.ok r, s') ∧
      (∀ im, r = some im → ∃ elf hs, (readHeader c 0 52).map Elfhdr.ofBytes = some elf ∧
        progHeaders c elf.phnum elf.phoff = some hs ∧ im.sz = imageSize (segments hs) ∧
        (∀ ph ∈ segments hs, ph.vaddr + ph.memsz < KERNBASE) ∧
        (∀ v < roundUp im.sz, Present (pte s'.mem im.pgdir v)) ∧
        ∀ a < im.sz, flat (content s'.mem im.pgdir) a = imageByte c (segments hs) a) ∧
      ∀ elf hs, Loadable c elf hs → s.fails = [] →
        1026 + roundUp (imageSize (segments hs)) < l.length → r ≠ none) ∧
    ∀ argv e s', (buildImage k (.panic .null) c argv).result s = (.error e, s') → e = .null := by
  have hM : (l : Multiset ℕ).Nodup := Multiset.coe_nodup.2 hnd
  refine ⟨?_, fun argv e s' he => ?_⟩
  · obtain ⟨r, s', hr, hs'⟩ := (loadImage_spec hM hok (c := c)).returns hl.work
    refine ⟨r, s', hr, ?_, ?_⟩
    · rintro im rfl
      obtain ⟨T, P, C, elf, hs, hh, -, hprog⟩ := hs'
      have hsegs := hprog.segs
      have hfull : ∀ v < roundUp im.sz, v < KERNPAGE ∧ Present (P v) := fun v hv =>
        ⟨hsegs.space.lt_KERNPAGE (lt_roundUp.1 hv), hsegs.space.full trivial v (lt_roundUp.1 hv)⟩
      refine ⟨elf, hs, hprog.header, hsegs.headers, hsegs.size,
        fun ph hph => (hsegs.fits ph hph).top, fun v hv => hh.pte ▸ (hfull v hv).2,
        fun a ha => ?_⟩
      have hpage : a / PGSIZE < roundUp im.sz := by
        unfold roundUp
        simp only [PGSIZE]
        omega
      have hdata := hh.data _ (hfull _ hpage).1 (hfull _ hpage).2
      rw [← imageByte_eq hsegs.fits, ← hsegs.bytes.below a (ha.trans_le (le_roundUp_mul _))]
      unfold flat content
      rw [hh.pte, hdata]
    · rintro elf hs hload hcalm hroom rfl
      obtain ⟨im, t, ht⟩ := hload.loads hl hnd hok hcalm hroom
      cases hr.symm.trans ht
  · exact ((buildImage_spec hM hok (.inr rfl)).of_error hl.work he).1

end

def tinyElf : List UInt8 := [0x7F, 0x45, 0x4C, 0x46] ++ List.replicate 48 0

theorem tinyElf_header : (readHeader tinyElf 0 52).map Elfhdr.ofBytes = some ⟨ELF_MAGIC, 0, 0, 0⟩ :=
  rfl

theorem tinyElf_loadable : Loadable tinyElf ⟨ELF_MAGIC, 0, 0, 0⟩ [] :=
  ⟨rfl, rfl, rfl, fun _ h => absurd h List.not_mem_nil⟩

theorem loadImage_tinyElf {k : Layout} {s s' : Phys} {d : ℕ}
    (h : (setupkvm k).result s = (.ok (some d), s')) :
    (loadImage k tinyElf).result s = (.ok (some ⟨d, 0, 0⟩), s') := by
  unfold loadImage
  rw [tinyElf_header]
  dsimp only
  rw [if_neg (by decide), result_bind, h]
  rfl

def overlapElf : List UInt8 :=
  ([ELF_MAGIC, 0, 0, 0, 0, 0, 0, 52, 0, 0, 0, 2, 0] ++
    [ELF_PROG_LOAD, 116, 0, 0, 4100, 4100, 0, 0] ++
    [ELF_PROG_LOAD, 4216, 4096, 0, 2, 6000, 0, 0]).flatMap (digits 4) ++
  List.replicate 4096 1 ++ [2, 3, 4, 5, 8, 9]

theorem overlapElf_loadable : Loadable overlapElf ⟨ELF_MAGIC, 0, 52, 2⟩
    [⟨ELF_PROG_LOAD, 116, 0, 4100, 4100⟩, ⟨ELF_PROG_LOAD, 4216, 4096, 2, 6000⟩] where
  header := by decide +kernel
  magic := rfl
  headers := by decide +kernel
  segs ph hph := by
    have hlen : overlapElf.length = 4218 := by decide +kernel
    rcases List.mem_cons.1 hph with rfl | hph
    · exact ⟨⟨by decide, by decide, .inr (by rw [hlen]; decide)⟩, by decide, by decide, by decide⟩
    · obtain rfl := List.mem_singleton.1 hph
      exact ⟨⟨by decide, by decide, .inr (by rw [hlen]; decide)⟩, by decide, by decide, by decide⟩

theorem loader_builds_image_boot : ∃ (s s' : Phys) (im : Loaded),
    (loadImage smallKernel overlapElf).result s = (.ok (some im), s') ∧ im.sz = 10096 ∧
    (∀ v < 3, Present (pte s'.mem im.pgdir v)) ∧
    [4095, 4096, 4097, 4098, 4099, 4100].map (flat (content s'.mem im.pgdir)) =
      [1, 8, 9, 4, 5, 0] ∧
    ∀ argv e t, (buildImage smallKernel (.panic .null) overlapElf argv).result s =
      (.error e, t) → e = .null := by
  obtain ⟨s, l, hl, hnd, hok, hcalm, hlen⟩ := boot_free
  obtain ⟨⟨r, s', hr, him, hloads⟩, hpanic⟩ := loader_builds_image hl hnd hok overlapElf
  have hroom : 1026 + roundUp (imageSize (segments [⟨ELF_PROG_LOAD, 116, 0, 4100, 4100⟩,
      ⟨ELF_PROG_LOAD, 4216, 4096, 2, 6000⟩])) < l.length := by
    rw [hlen]
    decide
  obtain ⟨im, rfl⟩ := Option.ne_none_iff_exists'.1 (hloads _ _ overlapElf_loadable hcalm hroom)
  obtain ⟨elf, hs, helf, hhs, hsize, -, hpres, hbytes⟩ := him im rfl
  obtain rfl := Option.some.inj (helf.symm.trans overlapElf_loadable.header)
  obtain rfl := Option.some.inj (hhs.symm.trans overlapElf_loadable.headers)
  have hsz : im.sz = 10096 := hsize.trans (by decide)
  refine ⟨s, s', im, hr, hsz, fun v hv => hpres v ?_, ?_, hpanic⟩
  · rw [hsz]
    exact hv
  · rw [List.map_congr_left fun a ha => hbytes a ?_]
    · decide +kernel
    · rw [hsz]
      revert a
      decide

def argRanges (argv : List (List UInt8)) (esp : ℕ) (ptrs : List ℕ) : List (ℕ × ℕ) :=
  (esp, 12) :: (esp + 12, 4 * (argv.length + 1)) :: ptrs.zip (argv.map (·.length + 1))

structure ArgsAt (φ : ℕ → UInt8) (argv : List (List UInt8)) (sz esp : ℕ) (ptrs : List ℕ) :
    Prop where
  aligned : esp % 4 = 0
  retpc : wordAt φ esp = 0xffffffff
  argc : wordAt φ (esp + 4) = argv.length
  array : wordAt φ (esp + 8) = esp + 12
  length : ptrs.length = argv.length
  ptr : ∀ i < argv.length, wordAt φ (esp + 12 + 4 * i) = ptrs.getD i 0
  last : wordAt φ (esp + 12 + 4 * argv.length) = 0
  string : ∀ i < argv.length, ∀ j < (argv.getD i []).length,
    φ (ptrs.getD i 0 + j) = (argv.getD i []).getD j 0
  nul : ∀ i < argv.length, φ (ptrs.getD i 0 + (argv.getD i []).length) = 0
  disjoint : (argRanges argv esp ptrs).Pairwise fun r r' => r.1 + r.2 ≤ r'.1 ∨ r'.1 + r'.2 ≤ r.1
  inside : ∀ r ∈ argRanges argv esp ptrs, sz - PGSIZE ≤ r.1 ∧ r.1 + r.2 ≤ sz

variable {argv : List (List UInt8)} {sp sz i : ℕ} {φ : ℕ → UInt8}

theorem le_up4 (n : ℕ) : n ≤ up4 n := by
  unfold up4
  omega

theorem argPieces_inside (h : argBytes argv ≤ sp) :
    ∀ w ∈ argPieces argv sp, sp - argBytes argv ≤ w.1 ∧ w.1 + w.2.length ≤ sp := by
  induction argv generalizing sp with
  | nil => exact fun w hw => absurd hw List.not_mem_nil
  | cons arg rest ih =>
    rw [argBytes_cons] at h ⊢
    have hup := le_up4 (arg.length + 1)
    intro w hw
    rcases List.mem_cons.1 hw with rfl | hmem
    · have hlen : (arg ++ [0]).length = arg.length + 1 := length_append
      dsimp only
      omega
    · have hw' := ih (by omega) w hmem
      omega

theorem argPieces_descending (h : argBytes argv ≤ sp) : Descending (argPieces argv sp) := by
  induction argv generalizing sp with
  | nil => exact .nil
  | cons arg rest ih =>
    rw [argBytes_cons] at h
    refine List.pairwise_cons.2 ⟨fun w hw => ?_, ih (by omega)⟩
    exact (argPieces_inside (by omega) w hw).2

theorem getD_argPieces (hi : i < argv.length) :
    (argPieces argv sp).getD i (0, []) =
      (((argPieces argv sp).map fst).getD i 0, argv.getD i [] ++ [0]) := by
  induction argv generalizing sp i with
  | nil => exact absurd hi (Nat.not_lt_zero i)
  | cons arg rest ih =>
    cases i with
    | zero => rfl
    | succ i => exact ih (Nat.lt_of_succ_lt_succ hi)

theorem zip_argPieces :
    ((argPieces argv sp).map fst).zip (argv.map (·.length + 1)) =
      (argPieces argv sp).map fun w => (w.1, w.2.length) := by
  induction argv generalizing sp with
  | nil => rfl
  | cons arg rest ih =>
    have hlen : (arg ++ [0]).length = arg.length + 1 := length_append
    rw [argPieces, map_cons, map_cons, List.zip_cons_cons, ih, map_cons, hlen]

theorem stackWords_length : (stackWords argv sz).length = argv.length + 4 := by
  rw [stackWords, ustack_length, length_map, argPieces_length]

section
variable (h : stackBytes argv ≤ sz)
include h

theorem stackPieces_descending : Descending (stackPieces argv sz) := by
  have hsplit : stackBytes argv = argBytes argv + 4 * (argv.length + 4) := rfl
  refine List.pairwise_append.2 ⟨argPieces_descending (by omega), List.pairwise_singleton _ _, ?_⟩
  intro w hw w' hw'
  obtain rfl := List.mem_singleton.1 hw'
  have hlow := (argPieces_inside (by omega) w hw).1
  dsimp only
  rw [length_words, stackWords_length]
  omega

theorem wordAt_stack {j w : ℕ} (hj : j < argv.length + 4)
    (hw : (stackWords argv sz).getD j 0 = w) (hlt : w < 2 ^ 32) :
    wordAt (overlays φ (stackPieces argv sz)) (sz - stackBytes argv + 4 * j) = w := by
  subst hw
  refine wordAt_words (fun i hi => ?_) (stackWords_length ▸ hj) hlt
  have hmem : (sz - stackBytes argv, (stackWords argv sz).flatMap (digits 4)) ∈
      stackPieces argv sz := List.mem_append_right _ (List.mem_singleton_self _)
  rw [← length_words] at hi
  exact overlays_of_mem (stackPieces_descending h) hmem hi

theorem byteAt_stack {j : ℕ} (hi : i < argv.length)
    (hj : j < (argv.getD i []).length + 1) :
    overlays φ (stackPieces argv sz) (((argPieces argv sz).map fst).getD i 0 + j) =
      (argv.getD i [] ++ [0]).getD j 0 := by
  have hlen : i < (argPieces argv sz).length := argPieces_length argv sz ▸ hi
  have hmem : (argPieces argv sz).getD i (0, []) ∈ stackPieces argv sz := by
    rw [getD_eq_getElem _ _ hlen]
    exact List.mem_append_left _ (List.getElem_mem hlen)
  rw [getD_argPieces hi] at hmem
  refine overlays_of_mem (stackPieces_descending h) hmem ?_
  rwa [length_append, List.length_singleton]

end

theorem ptr_lt (h : argBytes argv ≤ sz) (hi : i < argv.length) :
    ((argPieces argv sz).map fst).getD i 0 < sz := by
  have hlen : i < (argPieces argv sz).length := argPieces_length argv sz ▸ hi
  have hmem : (argPieces argv sz).getD i (0, []) ∈ argPieces argv sz := by
    rw [getD_eq_getElem _ _ hlen]
    exact List.getElem_mem hlen
  rw [getD_argPieces hi] at hmem
  have hin := (argPieces_inside h _ hmem).2
  rw [length_append, List.length_singleton] at hin
  omega

theorem argBytes_mod (argv : List (List UInt8)) : argBytes argv % 4 = 0 := by
  induction argv with
  | nil => rfl
  | cons arg rest ih =>
    have hup : up4 (arg.length + 1) % 4 = 0 := Nat.mul_mod_left _ _
    rw [argBytes_cons]
    omega

theorem argsAt_stackPieces (hfit : stackBytes argv ≤ PGSIZE) (hsz : PGSIZE ≤ sz)
    (hmax : sz ≤ 2 ^ 31) (halign : sz % 4 = 0) :
    ArgsAt (overlays φ (stackPieces argv sz)) argv sz (sz - stackBytes argv)
      ((argPieces argv sz).map fst) := by
  have hle : stackBytes argv ≤ sz := hfit.trans hsz
  have hsplit : stackBytes argv = argBytes argv + 4 * (argv.length + 4) := rfl
  have hargs := argBytes_mod argv
  have hlen : ((argPieces argv sz).map fst).length = argv.length := by
    rw [length_map, argPieces_length]
  have hptrs : ∀ i < argv.length, ((argPieces argv sz).map fst).getD i 0 < sz := fun i hi =>
    ptr_lt (by omega) hi
  have hpieces : ∀ w ∈ argPieces argv sz, sz - argBytes argv ≤ w.1 ∧ w.1 + w.2.length ≤ sz :=
    argPieces_inside (by omega)
  generalize hesp : sz - stackBytes argv = esp
  have hword {j w : ℕ} (hj : j < argv.length + 4) (hw : (stackWords argv sz).getD j 0 = w)
      (hlt : w < 2 ^ 32) : wordAt (overlays φ (stackPieces argv sz)) (esp + 4 * j) = w :=
    hesp ▸ wordAt_stack hle hj hw hlt
  refine ⟨by omega, hword (j := 0) (by omega) rfl (by decide), ?_, ?_, hlen, fun i hi => ?_, ?_,
    fun i hi j hj => ?_, fun i hi => ?_, ?_, ?_⟩
  · exact hword (j := 1) (by omega) hlen (by omega)
  · refine hword (j := 2) (by omega) ?_ (by omega)
    show subWord _ _ = _
    rw [hlen]
    unfold subWord
    omega
  · rw [show esp + 12 + 4 * i = esp + 4 * (i + 3) by omega]
    refine hword (by omega) ?_ ((hptrs i hi).trans (by omega))
    show (((argPieces argv sz).map fst) ++ [0]).getD i 0 = _
    exact List.getD_append _ _ _ _ (hlen ▸ hi)
  · rw [show esp + 12 + 4 * argv.length = esp + 4 * (argv.length + 3) by omega]
    refine hword (by omega) ?_ (by decide)
    show (((argPieces argv sz).map fst) ++ [0]).getD argv.length 0 = _
    rw [List.getD_append_right _ _ _ _ (hlen ▸ le_rfl), hlen, Nat.sub_self]
    rfl
  · rw [byteAt_stack hle hi (by omega), List.getD_append _ _ _ _ hj]
  · rw [byteAt_stack hle hi (by omega), List.getD_append_right _ _ _ _ le_rfl, Nat.sub_self]
    rfl
  · -- The words lie below the array, and the array below the strings.
    unfold argRanges
    rw [zip_argPieces]
    refine List.pairwise_cons.2 ⟨fun r hr => ?_, List.pairwise_cons.2 ⟨fun r hr => ?_,
      List.pairwise_map.2 ?_⟩⟩
    · rcases List.mem_cons.1 hr with rfl | hmem
      · exact .inl le_rfl
      · obtain ⟨w, hw, rfl⟩ := List.mem_map.1 hmem
        have hin := hpieces w hw
        dsimp only
        omega
    · obtain ⟨w, hw, rfl⟩ := List.mem_map.1 hr
      have hin := hpieces w hw
      dsimp only
      omega
    · exact (argPieces_descending (by omega)).imp fun h => .inr h
  · intro r hr
    unfold argRanges at hr
    rw [zip_argPieces] at hr
    rcases List.mem_cons.1 hr with rfl | hr
    · dsimp only
      omega
    rcases List.mem_cons.1 hr with rfl | hr
    · dsimp only
      omega
    · obtain ⟨w, hw, rfl⟩ := List.mem_map.1 hr
      have hin := hpieces w hw
      dsimp only
      omega

theorem Stacked.page {k : Layout} {P P' : ℕ → ℕ} {C C' : ℕ → Bytes PGSIZE} {n v : ℕ}
    (h : Stacked k P C n argv P' C' sp) (hv : v < n - 1) : C' v = zeroed C (n - 2) n v := by
  have hpage := h.guarded.last_page
  have hlow : v * PGSIZE + PGSIZE ≤ (n - 1) * PGSIZE := by
    rw [← Nat.succ_mul]
    exact Nat.mul_le_mul_right _ hv
  have hsplit : stackBytes argv = argBytes argv + 4 * (argv.length + 4) := rfl
  have hfit := h.fits
  refine bytes_ext fun i hi => ?_
  have hbyte := congrFun h.bytes (v * PGSIZE + i)
  rw [overlays_of_not] at hbyte
  · unfold flat at hbyte
    rwa [show (v * PGSIZE + i) / PGSIZE = v by simp only [PGSIZE] at *; omega,
      show (v * PGSIZE + i) % PGSIZE = i by simp only [PGSIZE] at *; omega] at hbyte
  intro w hw hin
  have htop : (n - 1) * PGSIZE ≤ w.1 := by
    refine le_trans (?_ : _ ≤ n * PGSIZE - stackBytes argv) ?_
    · rw [← hpage]
      exact Nat.le_sub_of_add_le (Nat.add_le_add_left hfit _)
    rcases List.mem_append.1 hw with hstr | hwords
    · have hle : argBytes argv ≤ n * PGSIZE := by
        rw [← hpage]
        exact le_trans (by omega) (Nat.le_add_left PGSIZE _)
      exact (Nat.sub_le_sub_left (by omega) _).trans (argPieces_inside hle w hstr).1
    · rw [List.mem_singleton.1 hwords]
  exact absurd (htop.trans hin.1) (not_le.2 (lt_of_lt_of_le (Nat.add_lt_add_left hi _) hlow))

theorem ArgsAt.congr {φ' : ℕ → UInt8} {esp : ℕ} {ptrs : List ℕ} (h : ArgsAt φ argv sz esp ptrs)
    (heq : ∀ a, sz - PGSIZE ≤ a → a < sz → φ' a = φ a) : ArgsAt φ' argv sz esp ptrs := by
  have hwords := h.inside _ List.mem_cons_self
  have harray := h.inside _ (List.mem_cons_of_mem _ List.mem_cons_self)
  have hstring : ∀ i < argv.length, sz - PGSIZE ≤ ptrs.getD i 0 ∧
      ptrs.getD i 0 + ((argv.getD i []).length + 1) ≤ sz := by
    intro i hi
    have hptr : i < ptrs.length := h.length ▸ hi
    refine h.inside (ptrs.getD i 0, (argv.getD i []).length + 1) ?_
    refine List.mem_cons_of_mem _ (List.mem_cons_of_mem _ (List.mem_iff_getElem.2 ⟨i, ?_, ?_⟩))
    · rw [List.length_zip, length_map]
      omega
    · rw [List.getElem_zip, List.getElem_map, getD_eq_getElem _ _ hptr, getD_eq_getElem _ _ hi]
  have hword : ∀ a, sz - PGSIZE ≤ a → a + 4 ≤ sz → wordAt φ' a = wordAt φ a := by
    intro a hlo hhi
    unfold wordAt
    congr 1
    funext i
    exact heq _ (by omega) (by omega)
  dsimp only at hwords harray
  refine ⟨h.aligned, ?_, ?_, ?_, h.length, fun i hi => ?_, ?_, fun i hi j hj => ?_, fun i hi => ?_,
    h.disjoint, h.inside⟩
  · rw [hword _ (by omega) (by omega), h.retpc]
  · rw [hword _ (by omega) (by omega), h.argc]
  · rw [hword _ (by omega) (by omega), h.array]
  · rw [hword _ (by omega) (by omega), h.ptr i hi]
  · rw [hword _ (by omega) (by omega), h.last]
  · have hin := hstring i hi
    rw [heq _ (by omega) (by omega), h.string i hi j hj]
  · have hin := hstring i hi
    rw [heq _ (by omega) (by omega), h.nul i hi]

end Xv6.Vm
