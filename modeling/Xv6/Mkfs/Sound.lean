import Xv6.Mkfs.Build

namespace Xv6.Mkfs

open Lib Fs Function
open List (length_append)

structure Stage (n : ℕ) (I : ℕ → Dinode) (Φ : ℕ → ℕ → Block) (st : Img) : Prop where
  sane : st.Sane
  settled : Settled area I Φ (.boot st.full)
  freeinode : st.freeinode = n
  written : ∀ b ∈ st.inodeBlocks, sb.inodestart ≤ b ∧ b < sb.bmapstart

def Overflows (I : ℕ → Dinode) (w stop : ℕ) : Prop :=
  MAXFILE * BSIZE < stop ∨
    area.nblocks < used area I (update (fun i => cdiv (I i).size) w (cdiv stop))

section
variable {st : Img} {I : ℕ → Dinode} {Φ : ℕ → ℕ → Block} {n w : ℕ} {x : Dinode}
  {p : List UInt8}

def Img.putInode (st : Img) (w : ℕ) (x : Dinode) : Img :=
  { st.store (sb.iblock w) (putDinode (st.disk (sb.iblock w)) (w % IPB) x) with
    inodeBlocks := sb.iblock w :: st.inodeBlocks }

theorem iblock_area (hw : w < area.ninodes) :
    sb.inodestart ≤ sb.iblock w ∧ sb.iblock w < sb.bmapstart :=
  have h : area.iblock w < area.bmapstart := Super.iblock_lt hw
  ⟨Nat.le_add_left _ _, h⟩

theorem iblock_lt_size (hw : w < area.ninodes) : sb.iblock w < FSSIZE :=
  (Super.iblock_lt hw).trans (by decide)

theorem rinode_result (hst : st.Sane) (hw : w < area.ninodes) :
    (rinode w).result st = (.ok (area.dinode st.full w), st) := by
  have hne : sb.iblock w ≠ sb.bmapstart := (Super.iblock_lt hw).ne
  unfold rinode
  rw [result_bind_ok (rsect_ok hst.len (iblock_lt_size hw))]
  show ((.ok (getDinode (st.disk (sb.iblock w)) (w % IPB)), st) : Except Exit _ × Img) = _
  rw [← Img.full_of_ne hne]
  rfl

theorem winode_result (hst : st.Sane) (hw : w < area.ninodes) (x : Dinode) :
    (winode w x).result st = (.ok (), st.putInode w x) := by
  unfold winode
  rw [result_bind_ok (rsect_ok hst.len (iblock_lt_size hw))]
  show ((.ok (), { st.wsect (sb.iblock w) _ with
    inodeBlocks := sb.iblock w :: st.inodeBlocks }) : Except Exit _ × Img) = _
  rw [wsect_eq hst.len (iblock_lt_size hw)]
  rfl

theorem Img.Sane.putInode (h : st.Sane) (hw : w < area.ninodes) : (st.putInode w x).Sane := by
  have hlt : sb.iblock w < st.freeblock :=
    (Super.iblock_lt_nmeta hw).trans_le h.lo
  have hs := h.store (v := putDinode (st.disk (sb.iblock w)) (w % IPB) x) hlt
  exact ⟨hs.len, hs.lo, hs.hi, hs.blank⟩

theorem Img.full_putInode (hw : w < area.ninodes) :
    (st.putInode w x).full = ((State.boot st.full).write (area.iblock w)
      (putDinode · (w % IPB) x)).disk := by
  have hne : sb.iblock w ≠ sb.bmapstart := (Super.iblock_lt hw).ne
  show (st.store (sb.iblock w) _).full = update st.full (sb.iblock w) _
  rw [Img.full_update hne]
  congr 1
  show _ = putDinode (st.full (sb.iblock w)) _ _
  rw [Img.full_of_ne hne]

theorem Stage.written_putInode (h : Stage n I Φ st) (hw : w < area.ninodes) :
    ∀ b ∈ (st.putInode w x).inodeBlocks, sb.inodestart ≤ b ∧ b < sb.bmapstart := by
  intro b hb
  rcases List.mem_cons.1 hb with rfl | hb
  · exact iblock_area hw
  · exact h.written b hb

theorem newInode_fits {type : ℕ} (h : type < 2 ^ 16) : (newInode type).Fits := by
  have hnew := Dinode.new_fits h
  exact ⟨hnew.type, hnew.major, hnew.minor, Nat.one_lt_two_pow (by decide), hnew.size, hnew.addrs,
    hnew.past⟩

theorem ialloc_spec (type : ℕ) (h : Stage n I Φ st) (hn : n < area.ninodes)
    (hfree : (I n).type = 0) (ht : type ≠ 0) (htype : type < 2 ^ 16) :
    ∃ st', (ialloc type).result st = (.ok n, st') ∧
      Stage (n + 1) (update I n (newInode type)) (update Φ n fun _ => zeros)
        st' := by
  have hsane : Img.Sane { st with freeinode := st.freeinode + 1 } :=
    ⟨h.sane.len, h.sane.lo, h.sane.hi, h.sane.blank⟩
  refine ⟨.putInode { st with freeinode := st.freeinode + 1 } n (newInode type), ?_, ?_⟩
  · unfold ialloc
    rw [result_bind_ok (show nextInode.result st =
      (.ok n, { st with freeinode := st.freeinode + 1 }) by rw [← h.freeinode]; rfl),
      result_bind_ok (winode_result hsane hn _)]
    rfl
  refine ⟨hsane.putInode hn, ?_, by rw [← h.freeinode]; rfl,
    h.written_putInode (x := newInode type) hn⟩
  have hadopt := h.settled.adopt hn hfree (x := newInode type) ht (newInode_fits htype) rfl rfl
  rw [Img.full_putInode hn]
  exact hadopt.boot

theorem Stage.size_le (h : Stage n I Φ st) (hw : w < area.ninodes) (ht : (I w).type ≠ 0) :
    (I w).size ≤ MAXFILE * BSIZE := cdiv_le_iff.1 (h.settled.filled w hw ht).le

theorem Overflows.mono {a b : ℕ} (hw : w < area.ninodes) (ht : (I w).type ≠ 0) (hab : a ≤ b)
    (h : Overflows I w a) : Overflows I w b := by
  refine h.imp (fun h => h.trans_le hab) fun h => h.trans_le ?_
  have ha := used_grow (c := fun i => cdiv (I i).size) hw ht (cdiv a)
  have hb := used_grow (c := fun i => cdiv (I i).size) hw ht (cdiv b)
  have hle := blks_mono (cdiv_mono hab)
  omega

theorem iappend_spec (h : Stage n I Φ st) (hw : w < area.ninodes) (ht : (I w).type ≠ 0) :
    Triple (· = st) (iappend w p)
      (fun _ st' => ∃ x, x = { I w with size := (I w).size + p.length, addrs := x.addrs } ∧
        Stage n (update I w x) (update Φ w (splice (Φ w) (I w).size p)) st')
      fun _ _ => Overflows I w ((I w).size + p.length) := by
  have hsize := h.size_le hw ht
  have hdin : area.dinode st.full w = I w := h.settled.disk w hw
  refine ⟨fun s hs => ?_⟩
  unfold iappend
  rw [hs, result_bind_ok (rinode_result h.sane hw), hdin]
  by_cases hmax : (I w).size + p.length ≤ MAXFILE * BSIZE
  · have hload := h.settled.load ht
    have hwork := hload.work hw (update_self ..)
    have hfollow : Follows st st ((State.boot st.full).load w (I w)) := ⟨h.sane, rfl, rfl, rfl⟩
    have hmem : ((State.boot st.full).load w (I w)).inode w = I w := update_self ..
    have hspec := writeLoop_spec hwork (le_refl p.length) (le_cdiv_mul _) hmax
    have hc : max (cdiv (I w).size) (cdiv ((I w).size + p.length)) =
        cdiv ((I w).size + p.length) := max_eq_right (cdiv_mono (Nat.le_add_right _ _))
    rw [hc] at hspec
    rcases iappendLoop_sim hfollow hwork le_rfl (le_cdiv_mul _) hmax with
      ⟨s', st', hk, hm, hf⟩ | ⟨⟨e, s', hk⟩, e', st', hm⟩
    · obtain ⟨-, x, D, hx, -, hw', -⟩ := hspec.of_ok rfl hk
      rw [hmem] at hm
      have hself : update I w x w = x := update_self ..
      have hsx : s'.inode w = x := by rw [hw'.mem, hself]
      obtain ⟨y, hy⟩ : ∃ y, y = { x with size := (I w).size + p.length } := ⟨_, rfl⟩
      have hyx : y = { I w with size := (I w).size + p.length, addrs := y.addrs } := by
        rw [hy, hx]
      have hxf := hw'.fits
      have hxt := hw'.type
      rw [hself] at hxf hxt
      have hyf : y.Fits := by
        rw [hy]
        exact ⟨hxf.type, hxf.major, hxf.minor, hxf.nlink, hmax.trans_lt (by decide), hxf.addrs,
          hxf.past⟩
      have hbecome := hw'.become (x := y) (by rw [hself, hy]) (by rw [hy]; exact hxt) hyf
      rw [update_idem] at hbecome
      rw [result_bind_ok hm, winode_result hf.sane hw, hsx, ← hy]
      refine ⟨y, hyx, hf.sane.putInode hw, ?_, ?_, ?_⟩
      · have hflush := hbecome.flush.boot
        have hset : (s'.setInode w y).inode w = y := update_self ..
        have hdisk : ((s'.setInode w y).write (area.iblock w)
            (putDinode · (w % IPB) ((s'.setInode w y).inode w))).disk =
            (st'.putInode w y).full := by
          rw [Img.full_putInode hw, hset]
          show update s'.disk _ _ = update st'.full _ _
          rw [← hf.disk]
          rfl
        rw [hdisk] at hflush
        have hcs := cdiv_stretch (show y.size = max (I w).size ((I w).size + p.length) by
          rw [hy, max_eq_right (Nat.le_add_right _ _)])
        rw [hc] at hcs
        rw [Settled, hcs]
        exact hflush
      · exact hf.freeinode.trans h.freeinode
      · intro b hb
        rcases List.mem_cons.1 hb with rfl | hb
        · exact iblock_area hw
        · exact h.written b (hf.inodeBlocks ▸ hb)
    · have hover := hspec.of_error rfl hk
      rw [hmem] at hm
      rw [result_bind_error hm]
      have hused := hover.2.1
      rw [Multiset.card_zero, Nat.add_zero] at hused
      exact .inr hused
  · have hbound := (iappendLoop_bound p.length (I w) (I w).size p le_rfl hsize).ends st trivial
    rcases hr : (iappendLoop p.length (I w) (I w).size p).result st with ⟨e | r, st'⟩
    · rw [result_bind_error hr]
      exact .inl (not_le.1 hmax)
    · rw [hr] at hbound
      exact absurd hbound hmax

theorem cdiv_update (I : ℕ → Dinode) (w : ℕ) (x : Dinode) :
    (fun i => cdiv (update I w x i).size) =
      update (fun i => cdiv (I i).size) w (cdiv x.size) := by
  funext i
  by_cases hi : i = w
  · rw [hi, update_self, update_self]
  · rw [update_of_ne hi, update_of_ne hi]

theorem Overflows.update {stop : ℕ} (hw : w < area.ninodes) (hx : x.type = (I w).type)
    (h : Overflows (update I w x) w stop) : Overflows I w stop := by
  unfold Overflows at h
  rwa [cdiv_update, update_idem, used_addrs hw hx] at h

theorem used_become (hw : w < area.ninodes) (hx : x.type ≠ 0) :
    used area (update I w x) (fun i => cdiv (update I w x i).size) +
        (if (I w).type = 0 then 0 else blks (cdiv (I w).size)) =
      used area I (fun i => cdiv (I i).size) + blks (cdiv x.size) := by
  have h := used_update (c := fun i => cdiv (I i).size) (J := I) hw x (cdiv x.size)
  rwa [if_neg hx, ← cdiv_update] at h

theorem used_new (type : ℕ) (hw : w < area.ninodes) (hfree : (I w).type = 0) (ht : type ≠ 0) :
    used area (update I w (newInode type))
        (fun i => cdiv (update I w (newInode type) i).size) =
      used area I (fun i => cdiv (I i).size) := by
  have h := used_become (I := I) (x := newInode type) hw ht
  have hzero : blks (cdiv 0) = 0 := by decide
  rwa [if_pos hfree, show (newInode type).size = 0 from rfl, hzero, Nat.add_zero, Nat.add_zero] at h

theorem appendChunks_spec (chunks : List (List UInt8)) (h : Stage n I Φ st)
    (hw : w < area.ninodes) (ht : (I w).type ≠ 0) :
    Triple (· = st) (appendChunks w chunks)
      (fun _ st' => ∃ x,
        x = { I w with size := (I w).size + chunks.flatten.length, addrs := x.addrs } ∧
        Stage n (update I w x)
          (update Φ w (splice (Φ w) (I w).size chunks.flatten)) st')
      fun _ _ => Overflows I w ((I w).size + chunks.flatten.length) := by
  induction chunks generalizing I Φ st with
  | nil =>
    refine .pure fun s hs => ⟨I w, rfl, ?_⟩
    rw [List.flatten_nil, splice_nil, update_eq_self, update_eq_self, hs]
    exact h
  | cons c rest ih =>
    rw [List.flatten_cons, length_append]
    refine .bind ((iappend_spec h hw ht).err fun _ _ he => he.mono hw ht (by omega)) fun _ =>
      .of_state fun st1 ⟨x, hx, h1⟩ => ?_
    have hself : update I w x w = x := update_self ..
    have htype : x.type = (I w).type := by rw [hx]
    have hsize : x.size = (I w).size + c.length := by rw [hx]
    have hrest := ih h1 (by rw [hself, htype]; exact ht)
    rw [hself, hsize, update_self, splice_append, update_idem, Nat.add_assoc] at hrest
    refine hrest.mono (fun _ st' ⟨y, hy, hst'⟩ => ⟨y, by rw [hy, hx], ?_⟩)
      fun _ _ he => he.update hw htype
    rwa [update_idem] at hst'

end

def rootBytes (files : List Input) : List UInt8 :=
  direntBytes ROOTINO [46] ++ direntBytes ROOTINO [46, 46] ++
    files.zipIdx.flatMap fun f => direntBytes (f.2 + 2) f.1.entry

def need (files : List Input) : ℕ :=
  blks (cdiv (16 * (files.length + 2))) + (files.map fun f => blks (cdiv f.bytes.length)).sum

structure Made (files : List Input) (I : ℕ → Dinode) (Φ : ℕ → ℕ → Block) : Prop where
  root : I ROOTINO =
    { newInode T_DIR with size := 16 * (files.length + 2), addrs := (I ROOTINO).addrs }
  rootBytes : stream (Φ ROOTINO) 0 (16 * (files.length + 2)) = rootBytes files
  file : ∀ j f, files[j]? = some f →
    I (j + 2) = { newInode T_FILE with size := f.bytes.length, addrs := (I (j + 2)).addrs } ∧
      stream (Φ (j + 2)) 0 f.bytes.length = f.bytes
  free : ∀ i, i ≠ ROOTINO → i < 2 ∨ files.length + 2 ≤ i → I i = .new 0
  used : used area I (fun i => cdiv (I i).size) = need files

structure Fits (files : List Input) : Prop where
  names : ∀ f ∈ files, 47 ∉ f.name
  sizes : ∀ f ∈ files, f.bytes.length ≤ MAXFILE * BSIZE
  blocks : need files ≤ area.nblocks

section
variable {st : Img} {I : ℕ → Dinode} {Φ : ℕ → ℕ → Block} {files : List Input} {f : Input}

theorem Made.root_size (h : Made files I Φ) : (I ROOTINO).size = 16 * (files.length + 2) :=
  congrArg Dinode.size h.root

theorem Made.root_type (h : Made files I Φ) : (I ROOTINO).type = T_DIR :=
  congrArg Dinode.type h.root

theorem need_append (files : List Input) (f : Input) :
    need (files ++ [f]) = blks (cdiv (16 * (files.length + 3))) +
      (files.map fun f => blks (cdiv f.bytes.length)).sum + blks (cdiv f.bytes.length) := by
  rw [need, length_append, List.length_singleton, List.map_append, List.sum_append,
    List.map_singleton, List.sum_singleton, ← Nat.add_assoc]

theorem need_root (files : List Input) (f : Input) :
    need files + blks (cdiv (16 * (files.length + 2) + 16)) + blks (cdiv f.bytes.length) =
      need (files ++ [f]) + blks (cdiv (16 * (files.length + 2))) := by
  rw [need_append, need, show 16 * (files.length + 2) + 16 = 16 * (files.length + 3) by omega]
  omega

theorem need_le (files rest : List Input) : need files ≤ need (files ++ rest) := by
  rw [need, need, length_append, List.map_append, List.sum_append]
  have h : blks (cdiv (16 * (files.length + 2))) ≤
      blks (cdiv (16 * (files.length + rest.length + 2))) := blks_mono (cdiv_mono (by omega))
  omega

theorem Fits.of_append {rest : List Input} (h : Fits (files ++ rest)) : Fits files :=
  ⟨fun f hf => h.names f (List.mem_append_left _ hf),
    fun f hf => h.sizes f (List.mem_append_left _ hf), (need_le files rest).trans h.blocks⟩

theorem Made.append (hm : Made files I Φ) {w : ℕ} (hw : w = files.length + 2)
    (hn : w < area.ninodes) {x y : Dinode} {ψ : ℕ → Block}
    (hx : x = { I ROOTINO with size := 16 * (files.length + 2) + 16, addrs := x.addrs })
    (hy : y = { newInode T_FILE with size := f.bytes.length, addrs := y.addrs }) :
    Made (files ++ [f])
      (update (update (update I w (newInode T_FILE)) ROOTINO x) w y)
      (update (update (update Φ w fun _ => zeros) ROOTINO
        (splice (Φ ROOTINO) (16 * (files.length + 2)) (direntBytes w f.entry))) w
        (splice ψ 0 f.bytes)) := by
  have hroot : ROOTINO < area.ninodes := by decide
  have hw1 : ROOTINO ≠ w := by
    simp only [ROOTINO]
    omega
  have hlen : (files ++ [f]).length = files.length + 1 := length_append
  have hxtype : x.type ≠ 0 := (congrArg Dinode.type hx).trans hm.root_type ▸ by decide
  have hxsize : x.size = 16 * (files.length + 2) + 16 := congrArg Dinode.size hx
  have hytype : y.type ≠ 0 := (show y.type = T_FILE from congrArg Dinode.type hy) ▸ by decide
  have hysize : y.size = f.bytes.length := congrArg Dinode.size hy
  refine ⟨?_, ?_, fun j g hj => ?_, fun i hi hfree => ?_, ?_⟩
  · rw [update_of_ne hw1, update_self, hlen, hx, hm.root]
    rfl
  · have hend : 16 * (files.length + 1 + 2) =
        16 * (files.length + 2) + (direntBytes w f.entry).length := by
      rw [length_direntBytes]
      omega
    rw [update_of_ne hw1, update_self, hlen, hend, stream_splice_end (by decide),
      hm.rootBytes, Mkfs.rootBytes, Mkfs.rootBytes, List.zipIdx_append, List.flatMap_append, hw]
    simp [List.append_assoc]
  · by_cases hjl : j < files.length
    · rw [List.getElem?_append_left hjl] at hj
      have hne : j + 2 ≠ w := by omega
      have hne1 : j + 2 ≠ ROOTINO := by
        simp only [ROOTINO]
        omega
      simp only [update_of_ne hne, update_of_ne hne1]
      exact hm.file j g hj
    · have hje : j = files.length := by
        have := (List.getElem?_eq_some_iff.1 hj).1
        omega
      rw [hje, List.getElem?_append_right le_rfl, Nat.sub_self, List.getElem?_cons_zero] at hj
      obtain rfl := Option.some.inj hj
      rw [hje, ← hw, update_self, update_self]
      exact ⟨hy, stream_splice (by decide)⟩
  · rw [hlen] at hfree
    have hne : i ≠ w := by omega
    rw [update_of_ne hne, update_of_ne hi, update_of_ne hne]
    exact hm.free i hi (by omega)
  · -- three inodes change, one after the other
    have hu1 := used_new (I := I) T_FILE hn
      (congrArg Dinode.type (hm.free w (.symm hw1) (.inr hw.ge))) (by decide)
    have hu2 := used_become (I := update I w (newInode T_FILE)) hroot hxtype
    have hu3 := used_become (I := update (update I w (newInode T_FILE)) ROOTINO x) hn hytype
    rw [update_of_ne hw1, hm.root_type, hm.root_size, if_neg (by decide), hu1, hm.used,
      hxsize] at hu2
    rw [update_of_ne (.symm hw1), update_self, if_neg (by decide), hysize,
      show blks (cdiv (newInode T_FILE).size) = 0 from rfl] at hu3
    have hneed := need_root files f
    omega

theorem addFile_spec (h : Stage (files.length + 2) I Φ st) (hm : Made files I Φ)
    (hn : files.length + 2 < area.ninodes) :
    Triple (· = st) (addFile f)
      (fun _ st' => ∃ I' Φ', Stage ((files ++ [f]).length + 2) I' Φ' st' ∧
        Made (files ++ [f]) I' Φ')
      fun _ _ => ¬Fits (files ++ [f]) := by
  obtain ⟨w, hw⟩ : ∃ w, w = files.length + 2 := ⟨_, rfl⟩
  have hroot : ROOTINO < area.ninodes := by decide
  have hw1 : ROOTINO ≠ w := by
    simp only [ROOTINO]
    omega
  have hnin : area.ninodes = 208 := rfl
  have hfree : (I w).type = 0 := congrArg Dinode.type (hm.free w (.symm hw1) (.inr hw.ge))
  have hneed := need_root files f
  have hlast : f ∈ files ++ [f] := List.mem_append_right _ (List.mem_singleton_self f)
  rw [← hw] at h hn
  unfold addFile assert
  refine .bind (R := fun _ s => s = st) (.ite (fun _ => .pure fun _ hs => hs)
    fun hslash => .panic fun _ _ hfits => hslash (hfits.names f hlast)) fun _ => ?_
  obtain ⟨st1, hres, h1⟩ := ialloc_spec T_FILE h hn hfree (by decide) (by decide)
  refine .bind (R := fun inum s => inum = w ∧ s = st1) ⟨fun s hs => ?_⟩
    fun inum => .of_and fun hinum => ?_
  · rw [hs, hres]
    exact ⟨rfl, rfl⟩
  subst hinum
  have hI1 : update I inum (newInode T_FILE) ROOTINO = I ROOTINO :=
    update_of_ne hw1 _ _
  have hrsize := hm.root_size
  have hrtype : (I ROOTINO).type ≠ 0 := hm.root_type ▸ by decide
  have hu1 := used_new (I := I) T_FILE hn hfree (by decide)
  rw [hm.used] at hu1
  refine .bind ((iappend_spec h1 hroot (by rwa [hI1])).err fun _ _ he => ?_) fun _ =>
    .of_state fun st2 ⟨x, hx, h2⟩ => ?_
  · rw [hI1, hrsize, length_direntBytes] at he
    rcases he with he | he
    · exact absurd he (by simp only [MAXFILE, NDIRECT, NINDIRECT, BSIZE]; omega)
    have hu := used_grow (c := fun i => cdiv (update I inum (newInode T_FILE) i).size)
      (J := update I inum (newInode T_FILE)) hroot (by rwa [hI1])
      (cdiv (16 * (files.length + 2) + 16))
    rw [hu1, hI1, hrsize] at hu
    intro hfits
    have := hfits.blocks
    omega
  rw [hI1, hrsize, length_direntBytes] at hx
  rw [hI1, hrsize, update_of_ne hw1] at h2
  obtain ⟨I2, hI2⟩ : ∃ I2, I2 = update (update I inum (newInode T_FILE)) ROOTINO x := ⟨_, rfl⟩
  have hI₂w : I2 inum = newInode T_FILE := by
    rw [hI2, update_of_ne (.symm hw1), update_self]
  have hsize : (I2 inum).size = 0 := by rw [hI₂w]; rfl
  have htype : (I2 inum).type ≠ 0 := by rw [hI₂w]; decide
  rw [← hI2] at h2
  refine (appendChunks_spec f.chunks h2 hn htype).mono (fun _ st3 ⟨y, hy, h3⟩ => ?_) fun _ _ he =>
    ?_
  · rw [hsize] at h3
    have hyI : y = { newInode T_FILE with size := f.bytes.length, addrs := y.addrs } := by
      rw [hy, hsize, Nat.zero_add, hI₂w]
      rfl
    have hlen : (files ++ [f]).length + 2 = inum + 1 := by
      rw [length_append, List.length_singleton]
      omega
    rw [hlen]
    refine ⟨_, _, h3, ?_⟩
    rw [hI2]
    exact hm.append hw hn hx hyI
  · rw [hsize, Nat.zero_add] at he
    intro hfits
    refine he.elim (not_lt.2 (hfits.sizes f hlast)) fun he => absurd hfits.blocks (not_le.2 ?_)
    have hu2 := used_become (I := update I inum (newInode T_FILE)) (w := ROOTINO) (x := x)
      hroot (congrArg Dinode.type hx ▸ hrtype)
    rw [hI1, if_neg hrtype, hrsize, hu1, ← hI2, show x.size = 16 * (files.length + 2) + 16 from
      congrArg Dinode.size hx] at hu2
    have hu := used_grow (c := fun i => cdiv (I2 i).size) (J := I2) hn htype
      (cdiv f.chunks.flatten.length)
    rw [hsize] at hu
    have hzero : blks (cdiv 0) = 0 := rfl
    have hbytes : f.bytes.length = f.chunks.flatten.length := rfl
    rw [hbytes] at hneed
    omega

theorem addFiles_spec (files rest : List Input) (h : Stage (files.length + 2) I Φ st)
    (hm : Made files I Φ) (hn : files.length + rest.length + 2 ≤ area.ninodes) :
    Triple (· = st) (addFiles rest)
      (fun _ st' => ∃ I' Φ', Stage ((files ++ rest).length + 2) I' Φ' st' ∧
        Made (files ++ rest) I' Φ')
      fun _ _ => ¬Fits (files ++ rest) := by
  induction rest generalizing files I Φ st with
  | nil =>
    refine .pure fun s hs => ⟨I, Φ, ?_⟩
    rw [List.append_nil, hs]
    exact ⟨h, hm⟩
  | cons f rest ih =>
    rw [List.append_cons]
    rw [List.length_cons] at hn
    refine .bind ((addFile_spec h hm (by omega)).err fun _ _ he hfits => he hfits.of_append)
      fun _ => .of_state fun st1 ⟨I1, Φ1, h1, hm1⟩ => ?_
    refine ih _ h1 hm1 ?_
    rw [length_append, List.length_singleton]
    omega

end

variable {st : Img} {I : ℕ → Dinode} {Φ : ℕ → ℕ → Block} {files : List Input}

theorem wipe_result (st : Img) (n : ℕ) (hlen : st.len + n ≤ FSSIZE)
    (hdisk : st.disk = fun _ => zeros) :
    (wipe (List.range' st.len n)).result st = (.ok (), { st with len := st.len + n }) := by
  induction n generalizing st with
  | zero => rfl
  | succ n ih =>
    have hlt : st.len < FSSIZE := by omega
    have hw : st.wsect st.len zeros = { st with len := st.len + 1 } := by
      unfold Img.wsect
      rw [sector_of_lt hlt, max_eq_right (Nat.le_succ _), hdisk]
      congr 1
      exact update_eq_self ..
    rw [List.range'_succ]
    unfold wipe
    rw [result_bind_ok (show (wsect st.len zeros).result st =
      (.ok (), st.wsect st.len zeros) from rfl), hw]
    have hrest := ih { st with len := st.len + 1 } (by show st.len + 1 + n ≤ FSSIZE; omega) hdisk
    rw [hrest]
    show ((.ok (), { st with len := st.len + 1 + n }) : Except Exit _ × Img) = _
    rw [Nat.add_right_comm, Nat.add_assoc]

def Img.blank : Img :=
  ⟨update (fun _ => zeros) 1 superBlock, FSSIZE, 1, nmeta, []⟩

theorem Img.blank_disk {b : ℕ} (hb : b ≠ 1) : Img.blank.disk b = zeros := by
  show update (fun _ => (zeros : Block)) 1 superBlock b = zeros
  rw [update_of_ne hb]

theorem getDinode_zeros (n : ℕ) : getDinode zeros n = .new 0 := by
  unfold getDinode Dinode.new
  simp only [getLE_zeros, ite_self]

theorem total_blank {sb : Super} (disk : ℕ → Block) : total sb (fun _ => .new 0) disk = 0 := by
  unfold total
  exact Finset.sum_eq_zero fun _ _ => own_free rfl

theorem settled_blank {sb : Super} {disk : ℕ → Block}
    (hzero : ∀ b, sb.inodestart ≤ b → b < sb.bmapstart → disk b = zeros)
    (hbits : ∀ b < sb.size, sb.inUse disk b = decide (b < sb.nmeta)) :
    Settled sb (fun _ => .new 0) (fun _ _ => zeros) (.boot disk) := by
  refine ⟨fun i hi => ?_, fun _ _ _ => rfl, fun _ _ _ hv => absurd hv Bool.false_ne_true,
    fun _ _ ht => absurd rfl ht, fun _ _ ht => absurd rfl ht, fun b hb => ?_, ?_, ?_⟩
  · rw [Super.dinode, show (State.boot disk).disk = disk from rfl,
      hzero (sb.iblock i) (Nat.le_add_left _ _) (Super.iblock_lt hi), getDinode_zeros]
  · rw [total_blank, zero_add, show (State.boot disk).disk = disk from rfl, hbits b hb,
      decide_eq_true_eq]
    exact ⟨.inl, fun h => h.resolve_right (Multiset.notMem_zero b)⟩
  · rw [total_blank]
    exact Multiset.nodup_zero
  · rw [total_blank]
    exact fun b hb => absurd hb (Multiset.notMem_zero b)

theorem Img.blank_sane : Img.blank.Sane := by
  refine ⟨rfl, le_rfl, by decide, fun b hb => Img.blank_disk ?_⟩
  rintro rfl
  exact absurd hb (by decide)

theorem Img.blank_full {b : ℕ} (hlo : sb.inodestart ≤ b) (hhi : b < sb.bmapstart) :
    Img.blank.full b = zeros := by
  have hge : 32 ≤ b := hlo
  rw [Img.full_of_ne hhi.ne, Img.blank_disk (by omega)]

theorem stage_blank : Stage 1 (fun _ => .new 0) (fun _ _ => zeros) .blank :=
  ⟨Img.blank_sane, settled_blank (fun _ => Img.blank_full) fun _ hb =>
    inUse_full (s := .boot Img.blank.full) Img.blank_sane rfl hb, rfl,
    fun _ hb => absurd hb List.not_mem_nil⟩

theorem settled_sb : Settled sb (fun _ => .new 0) (fun _ _ => zeros) (.boot Img.blank.full) :=
  settled_blank (fun _ => Img.blank_full) fun _ hb =>
    inUse_full (s := .boot Img.blank.full) Img.blank_sane rfl hb

theorem used_blank : used area (fun _ => .new 0) (fun _ => cdiv (Dinode.new 0).size) = 0 := by
  unfold used
  exact Finset.sum_eq_zero fun _ _ => if_pos rfl

theorem wipe_start {α : Type} (k : Op α) :
    (do wipe (List.range FSSIZE); wsect 1 superBlock; k).result .start = k.result .blank := by
  have hwipe : (wipe (.range' 0 FSSIZE)).result .start =
      (.ok (), { Img.start with len := FSSIZE }) := by
    have h := wipe_result .start FSSIZE (Nat.zero_add _).le rfl
    rwa [show Img.start.len = 0 from rfl, Nat.zero_add] at h
  have hsuper : (wsect 1 superBlock).result { Img.start with len := FSSIZE } =
      (.ok (), .wsect { Img.start with len := FSSIZE } 1 superBlock) := rfl
  rw [List.range_eq_range', result_bind_ok hwipe, result_bind_ok hsuper, wsect_eq rfl (by decide)]
  rfl

theorem makeRoot_spec :
    Triple (· = .blank) makeRoot
      (fun _ st => ∃ I Φ, Stage 2 I Φ st ∧ Made [] I Φ) Never := by
  have hroot : ROOTINO < area.ninodes := by decide
  obtain ⟨st1, hres, h1⟩ := ialloc_spec T_DIR stage_blank hroot rfl (by decide) (by decide)
  obtain ⟨I1, hI1⟩ : ∃ I1, I1 = update (fun _ => Dinode.new 0) ROOTINO (newInode T_DIR) :=
    ⟨_, rfl⟩
  have hu1 := used_new (I := fun _ => .new 0) T_DIR hroot rfl (by decide)
  rw [used_blank, ← hI1] at hu1
  rw [← hI1] at h1
  have hroot1 : I1 ROOTINO = newInode T_DIR := by rw [hI1, update_self]
  have hsmall : ∀ stop, stop ≤ 32 → ¬Overflows I1 ROOTINO stop := by
    rintro stop hstop (hbig | hover)
    · exact absurd hbig (by simp only [MAXFILE, NDIRECT, NINDIRECT, BSIZE]; omega)
    have hu := used_grow (c := fun i => cdiv (I1 i).size) (J := I1) hroot
      (by rw [hroot1]; decide) (cdiv stop)
    have hb : blks (cdiv stop) ≤ 1 := blks_mono (cdiv_mono hstop)
    have hnb : area.nblocks = 941 := by decide
    omega
  unfold makeRoot assert
  refine .bind (R := fun inum s => inum = ROOTINO ∧ s = st1) ⟨fun s hs => ?_⟩
    fun inum => .of_and fun hinum => ?_
  · rw [hs, hres]
    exact ⟨rfl, rfl⟩
  subst hinum
  rw [if_pos rfl]
  refine .bind (R := fun _ s => s = st1) (.pure fun _ hs => hs) fun _ => ?_
  refine .bind ((iappend_spec h1 hroot (by rw [hroot1]; decide)).err fun _ _ he => ?_) fun _ =>
    .of_state fun st2 ⟨x, hx, h2⟩ => ?_
  · refine hsmall _ ?_ he
    rw [hroot1, length_direntBytes]
    decide
  have hself : update I1 ROOTINO x ROOTINO = x := update_self ..
  have hxtype : x.type = T_DIR := by rw [hx, hroot1]; rfl
  have hxsize : x.size = 16 := by rw [hx, hroot1, length_direntBytes]; rfl
  refine (iappend_spec h2 hroot (by rw [hself, hxtype]; decide)).mono (fun _ st3 ⟨y, hy, h3⟩ => ?_)
    fun _ _ he => ?_
  · rw [hself, hxsize, length_direntBytes] at hy
    rw [hself, hxsize, update_self, update_idem, update_idem, hroot1] at h3
    have hysize : y.size = 32 := congrArg Dinode.size hy
    have hytype : y.type = T_DIR := (congrArg Dinode.type hy).trans hxtype
    refine ⟨_, _, h3, ⟨?_, ?_, fun j f hj => by simp at hj, fun i hi _ => ?_, ?_⟩⟩
    · rw [update_self, hy, hx, hroot1]
      rfl
    · rw [update_self, show (newInode T_DIR).size = 0 from rfl, update_self]
      have happ := splice_append (fun _ => (zeros : Block)) 0 (direntBytes ROOTINO [46])
        (direntBytes ROOTINO [46, 46])
      rw [length_direntBytes, Nat.zero_add] at happ
      rw [happ]
      exact (stream_splice (by decide)).trans (List.append_nil _).symm
    · rw [update_of_ne hi, hI1, update_of_ne hi]
    · have hu := used_become (I := I1) (w := ROOTINO) (x := y) hroot (by rw [hytype]; decide)
      rw [hroot1, if_neg (by decide), hu1, hysize] at hu
      exact hu
  · refine hsmall _ ?_ (he.update hroot (by rw [hxtype, hroot1]; rfl))
    rw [hself, hxsize, length_direntBytes]

def fixedRoot (x : Dinode) : Dinode := { x with size := (x.size / BSIZE + 1) * BSIZE % 2 ^ 32 }

structure Done (files : List Input) (I : ℕ → Dinode) (Φ : ℕ → ℕ → Block) (st : Img) : Prop where
  made : Made files I Φ
  core : Core area none (update I ROOTINO (fixedRoot (I ROOTINO)))
    (update I ROOTINO (fixedRoot (I ROOTINO))) Φ (fun i => cdiv (I i).size) 0
    (.boot st.disk)
  freeinode : st.freeinode = files.length + 2
  written : ∀ b ∈ st.inodeBlocks, sb.inodestart ≤ b ∧ b < sb.bmapstart
  bits : ∀ b < FSSIZE, area.inUse st.disk b = decide (b < st.freeblock)
  map : st.disk sb.bmapstart = bitmap st.freeblock
  le : st.freeblock ≤ FSSIZE

theorem finish_result (h : Stage (files.length + 2) I Φ st) (hm : Made files I Φ) :
    ∃ st', (do fixRoot; let used ← .read fun st => st.freeblock; balloc used).result st =
      (.ok (), st') ∧ Done files I Φ st' := by
  have hroot : ROOTINO < area.ninodes := by decide
  have hdin : area.dinode st.full ROOTINO = I ROOTINO := h.settled.disk ROOTINO hroot
  have hfix : fixRoot.result st = (.ok (), st.putInode ROOTINO (fixedRoot (I ROOTINO))) := by
    unfold fixRoot
    rw [result_bind_ok (rinode_result h.sane hroot), winode_result h.sane hroot, hdin]
    rfl
  obtain ⟨st1, hst1⟩ : ∃ st1, st1 = st.putInode ROOTINO (fixedRoot (I ROOTINO)) := ⟨_, rfl⟩
  have hsane : st1.Sane := hst1 ▸ h.sane.putInode hroot
  have htype : (I ROOTINO).type ≠ 0 := hm.root_type ▸ by decide
  have hfb : st1.freeblock < BSIZE * 8 := hsane.hi.trans_lt (by decide)
  have hwsect : (wsect sb.bmapstart (bitmap st1.freeblock)).result st1 =
      (.ok (), st1.store sb.bmapstart (bitmap st1.freeblock)) := by
    rw [← wsect_eq hsane.len (by decide)]
    rfl
  have hballoc : (balloc st1.freeblock).result st1 =
      (.ok (), st1.store sb.bmapstart (bitmap st1.freeblock)) := by
    unfold balloc assert
    rw [if_pos hfb]
    exact hwsect
  have hcore : Core area none (update I ROOTINO (fixedRoot (I ROOTINO)))
      (update I ROOTINO (fixedRoot (I ROOTINO))) Φ (fun i => cdiv (I i).size) 0
      (.boot st1.full) := by
    have hwork := (h.settled.load htype).work hroot (State.load_valid ..)
    have hfits : (fixedRoot (I ROOTINO)).Fits :=
      ⟨hwork.fits.type, hwork.fits.major, hwork.fits.minor, hwork.fits.nlink,
        Nat.mod_lt _ (Nat.two_pow_pos 32), hwork.fits.addrs, hwork.fits.past⟩
    have hflush := (hwork.become (x := fixedRoot (I ROOTINO)) rfl htype hfits).flush.boot
    rw [hst1, Img.full_putInode hroot]
    rw [State.setInode_self] at hflush
    exact hflush
  refine ⟨st1.store sb.bmapstart (bitmap st1.freeblock), ?_, hm, hcore, ?_, ?_, fun b hb => ?_,
    Img.full_bmap, hsane.hi⟩
  · rw [result_bind_ok hfix, ← hst1, result_read_bind]
    exact hballoc
  · rw [hst1]
    exact h.freeinode
  · rw [hst1]
    exact h.written_putInode (x := fixedRoot (I ROOTINO)) hroot
  · exact inUse_full (s := .boot st1.full) hsane rfl hb

theorem mkfs_spec (hn : files.length + 2 ≤ area.ninodes) :
    Triple (· = .start) (mkfs files) (fun _ st => ∃ I Φ, Done files I Φ st)
      fun _ _ => ¬Fits files := by
  refine ⟨fun s hs => ?_⟩
  rw [hs, mkfs, wipe_start]
  refine Prog.Triple.ends (P := (· = Img.blank)) ?_ _ rfl
  refine .bind (makeRoot_spec.panics _) fun _ => .of_state fun st ⟨I, Φ, h, hm⟩ => ?_
  refine .bind (addFiles_spec [] files h hm (by rwa [List.length_nil, Nat.zero_add]))
    fun _ => .of_state fun st' ⟨I', Φ', h', hm'⟩ => ?_
  rw [List.nil_append] at h' hm'
  obtain ⟨st1, hres, hdone⟩ := finish_result h' hm'
  refine ⟨fun s hs => ?_⟩
  rw [hs, hres]
  exact ⟨I', Φ', hdone⟩

theorem mkfs_returns (files : List Input) (hn : files.length + 2 ≤ area.ninodes)
    (hfits : Fits files) :
    ∃ st I Φ, (mkfs files).result .start = (.ok (), st) ∧ Done files I Φ st := by
  obtain ⟨_, st, hres, I, Φ, hdone⟩ := (mkfs_spec hn).returns_of (fun _ _ h => h hfits) rfl
  exact ⟨st, I, Φ, hres, hdone⟩

end Xv6.Mkfs
