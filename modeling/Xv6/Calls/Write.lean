import Xv6.Calls.Kernel
import Xv6.Fs.Held
import Xv6.Mkfs.Layout

namespace Xv6.Calls

open Lib Files Fs Function

section
variable {sb : Super} {w : ℕ} {I : ℕ → Dinode} {Φ : ℕ → ℕ → Block} {s₀ : State} {off n : UInt32}
  {src : List UInt8}

theorem chunk_blocks {size off n : ℕ} (hoff : off ≤ size) (hn : n ≤ maxWrite) :
    touched off n + (blks (max (cdiv size) (cdiv (off + n))) - blks (cdiv size)) + 2 ≤
      MAXOPBLOCKS := by
  have hmax : maxWrite = 1536 := rfl
  unfold touched blks cdiv
  simp only [BSIZE, NDIRECT, MAXOPBLOCKS]
  split <;> split <;> split <;> omega

theorem writei_fits_log (h : Settled sb I Φ s₀) (hw : w < sb.ninodes) (hv : s₀.valid w = true)
    (hfile : (I w).type = T_FILE) (hoff : off.toNat ≤ (I w).size) (hn : n.toNat ≤ maxWrite)
    (hmax : off.toNat + n.toNat ≤ MAXFILE * BSIZE) (hsrc : src.length = n.toNat)
    (dev : Option ℕ) :
    LoggedAtMost MAXOPBLOCKS s₀ ((writei sb dev w src off n).result s₀).2 := by
  have hdev : (I w).type ≠ T_DEV := hfile ▸ by decide
  have hle := chunk_blocks hoff hn
  refine Prog.Triple.final ((writei_spec h hw hv hdev hsrc dev).mono (fun r s hr => ?_)
    fun e s he => he.2.2.2.mono hle) rfl
  rcases hr with ⟨hrefused, -, -⟩ | ⟨-, -, x, -, -, hlogged⟩
  · rcases hrefused with hgap | hbig
    · exact absurd hgap (not_lt.2 hoff)
    · exact absurd hbig (not_lt.2 hmax)
  · exact hlogged.mono hle

end

structure OpenAt (sb : Super) (I : ℕ → Dinode) (Φ : ℕ → ℕ → Block) (f : Fin NFILE) (w off : ℕ)
    (k : Kernel) : Prop where
  settled : Settled sb I Φ k.fs
  lt : w < sb.ninodes
  regular : (I w).type = T_FILE
  ref : 0 < k.fs.ref w
  ip : (k.file f).ip = w
  off : (k.file f).off = off

def Stored (sb : Super) (I : ℕ → Dinode) (Φ : ℕ → ℕ → Block) (f : Fin NFILE) (w off : ℕ)
    (src : List UInt8) (k k' : Kernel) : Prop :=
  ∃ x, x = { (I w).stretch (off + src.length) with addrs := x.addrs } ∧
    OpenAt sb (update I w x) (update Φ w (splice (Φ w) off src)) f w
      (off + src.length) k' ∧
    k'.file = update k.file f { k.file f with off := off + src.length }

section
variable {sb : Super} {I : ℕ → Dinode} {Φ : ℕ → ℕ → Block} {f : Fin NFILE} {w off : ℕ}
  {k : Kernel} {src : List UInt8}

theorem OpenAt.size_le (h : OpenAt sb I Φ f w off k) : (I w).size ≤ MAXFILE * BSIZE :=
  cdiv_le_iff.1 (h.settled.filled w h.lt (h.regular ▸ by decide)).le

theorem writeChunk_spec (h : OpenAt sb I Φ f w off k) (hoff : off < 2 ^ 32) {n : ℕ} (hpos : 0 < n)
    (hn : n ≤ maxWrite) (hsrc : n ≤ src.length) (dev : Option ℕ) :
    Triple (· = k) (writeChunk sb dev f src n)
      (fun r k' => (Refused (I w) off n ∧ r = none ∧ k'.file = k.file ∧
          OpenAt sb I Φ f w off k') ∨
        (¬Refused (I w) off n ∧ r = some n ∧ Stored sb I Φ f w off (src.take n) k k'))
      fun e _ => e = .fs .outOfBlocks ∧ ¬Refused (I w) off n ∧
        sb.nblocks < grown sb I w (off + n) := by
  have ht : (I w).type ≠ 0 := h.regular ▸ by decide
  have hdev : (I w).type ≠ T_DEV := h.regular ▸ by decide
  have hmax : maxWrite < 2 ^ 32 := by decide
  have hoff' : (UInt32.ofNat off).toNat = off := UInt32.toNat_ofNat_of_lt hoff
  have hn' : (UInt32.ofNat n).toNat = n := UInt32.toNat_ofNat_of_lt (hn.trans_lt hmax)
  have hlen : (src.take n).length = n := by rw [List.length_take, min_eq_left hsrc]
  unfold writeChunk
  refine .bind (R := fun i k' => i = w ∧ k' = k)
    (.read fun k' hk' => ⟨by rw [hk', h.ip], hk'⟩) fun i => .of_and fun hi => ?_
  subst hi
  have hlock : Triple (· = k.fs) (ilock sb i) _ _ :=
    (Held.ilock (m := 0) h.lt (Nat.add_pos_left h.ref _)).pre fun s hs => by
      rw [hs]
      exact .start h.settled
  refine .bind ((triple_fs hlock).err fun e k' he => ?_)
    fun _ => .of_exists fun s1 => .of_state fun k1 hk1 => ?_
  · obtain ⟨_, _, -, -, -, hz⟩ := he
    exact absurd hz ht
  obtain ⟨rfl, -, hv, hheld⟩ := hk1
  refine .bind (R := fun o k' => o = off ∧ k' = { k with fs := s1 })
    (.read fun k' hk' => ⟨by rw [hk']; exact h.off, hk'⟩) fun o => .of_and fun ho => ?_
  subst ho
  have hwrite := triple_fs (k := { k with fs := s1 }) (((writei_spec hheld.settled h.lt hv hdev
    (hlen.trans hn'.symm) dev).and (keeps_writei dev (src.take n) (.ofNat o) (.ofNat n))).pre
    fun s (hs : s = s1) => ⟨hs, by rw [hs]; exact ⟨rfl, rfl, fun _ _ => rfl⟩⟩)
  rw [hoff', hn'] at hwrite
  refine .bind (hwrite.err fun e k' he => ?_)
    fun r => .of_exists fun s2 => .of_state fun k2 hk2 => ?_
  · obtain ⟨e', s, rfl, -, ⟨rfl, hok, hused, -⟩, -⟩ := he
    exact ⟨rfl, hok, hused⟩
  obtain ⟨rfl, hr, hbeside⟩ := hk2
  have href : 0 < s2.ref i := by
    rw [hbeside.ref, hheld.ref_eq]
    exact h.ref
  rcases hr with ⟨hrefused, rfl, rfl⟩ | ⟨hok, rfl, x, hx, hs2, -⟩
  · refine .bind (R := fun _ k' => k' = { k with fs := s2 })
      (.modify fun k' hk' => by rw [hk']; rfl) fun _ => .pure fun k' hk' => .inl ?_
    subst hk'
    exact ⟨hrefused, rfl, rfl, hheld.settled, h.lt, h.regular, href, h.ip, h.off⟩
  have hstop : o + n < 2 ^ 32 := by
    have hle : o + n ≤ MAXFILE * BSIZE := not_lt.1 fun hlt => hok (.inr hlt)
    exact hle.trans_lt (by decide)
  refine .bind (R := fun _ k' => k' = Kernel.setFile { k with fs := s2 } f
    { k.file f with off := o + n }) (.modify fun k' hk' => ?_) fun _ => .pure fun k' hk' => .inr ?_
  · rw [hk']
    show (if 0 < n then _ else _) = _
    rw [if_pos hpos]
    show Kernel.setFile _ f { k.file f with off := ((k.file f).off + n) % 2 ^ 32 } = _
    rw [h.off, Nat.mod_eq_of_lt hstop]
  subst hk'
  have hself : update k.file f { k.file f with off := o + n } f =
      { k.file f with off := o + n } := update_self ..
  refine ⟨hok, rfl, x, by rw [hlen]; exact hx, ?_, by rw [hlen]; rfl⟩
  rw [hlen]
  refine ⟨hs2, h.lt, ?_, href, ?_, ?_⟩
  · rw [update_self, hx]
    exact h.regular
  · show (update k.file f _ f).ip = i
    rw [hself]
    exact h.ip
  · show (update k.file f _ f).off = o + n
    rw [hself]

theorem Stored.trans {k' k'' : Kernel} {x : Dinode} {more : List UInt8}
    (hx : x = { (I w).stretch (off + src.length) with addrs := x.addrs })
    (hfile : k'.file = update k.file f { k.file f with off := off + src.length })
    (h : Stored sb (update I w x) (update Φ w (splice (Φ w) off src)) f w
      (off + src.length) more k' k'') : Stored sb I Φ f w off (src ++ more) k k'' := by
  obtain ⟨y, hy, hopen, hfile'⟩ := h
  have hself : k'.file f = { k.file f with off := off + src.length } := by
    rw [hfile, update_self]
  have hlen : off + src.length + more.length = off + (src ++ more).length := by
    rw [List.length_append, Nat.add_assoc]
  refine ⟨y, ?_, ?_, ?_⟩
  · rw [update_self, hx] at hy
    rw [hy, ← hlen]
    simp only [Dinode.stretch]
    congr 1
    omega
  · rw [update_idem, update_idem, update_self, splice_append, hlen] at hopen
    exact hopen
  · rw [hfile', hself, hfile, update_idem, hlen]

theorem Stored.nil {k' : Kernel} (h : OpenAt sb I Φ f w off k') (hoff : off ≤ (I w).size)
    (hfile : k'.file = k.file) : Stored sb I Φ f w off [] k k' := by
  refine ⟨I w, ?_, ?_, ?_⟩
  · rw [Dinode.stretch, List.length_nil, Nat.add_zero, max_eq_left hoff]
  · rw [splice_nil, update_eq_self, update_eq_self]
    exact h
  · have hself : { k.file f with off := off + ([] : List UInt8).length } = k.file f := by
      rw [← hfile, List.length_nil, Nat.add_zero, ← h.off]
    rw [hfile]
    exact ((congrArg (update k.file f) hself).trans (update_eq_self ..)).symm

theorem grown_mono (h : OpenAt sb I Φ f w off k) {stop stop' : ℕ} (hle : stop ≤ stop') :
    grown sb I w stop ≤ grown sb I w stop' := by
  have ht : (I w).type ≠ 0 := h.regular ▸ by decide
  have h1 := used_grow (c := fun i => cdiv (I i).size) h.lt ht (max (cdiv (I w).size) (cdiv stop))
  have h2 := used_grow (c := fun i => cdiv (I i).size) h.lt ht (max (cdiv (I w).size) (cdiv stop'))
  have hb : blks (max (cdiv (I w).size) (cdiv stop)) ≤ blks (max (cdiv (I w).size) (cdiv stop')) :=
    blks_mono (max_le_max le_rfl (cdiv_mono hle))
  unfold grown
  omega

theorem grown_stretch (hw : w < sb.ninodes) {x : Dinode} (stop : ℕ) {stop' : ℕ}
    (hle : stop ≤ stop') (hx : x = { (I w).stretch stop with addrs := x.addrs }) :
    grown sb (update I w x) w stop' = grown sb I w stop' := by
  have hsize : x.size = max (I w).size stop := by rw [hx]; rfl
  have htype : x.type = (I w).type := by rw [hx]; rfl
  have hcdiv := cdiv_mono hle
  rw [grown, cdiv_stretch hsize, update_self, update_idem, used_addrs hw htype,
    hsize, cdiv_max, grown, max_assoc, max_eq_right hcdiv]

theorem filewriteLoop_spec (h : OpenAt sb I Φ f w off k) (hoff : off ≤ (I w).size)
    {addr : List UInt8} {n i turns : ℕ} (hn : addr.length = n) (hi : i ≤ n)
    (hturns : n - i ≤ turns) (dev : Option ℕ) :
    Triple (· = k) (filewriteLoop sb dev f addr n turns i)
      (fun r k' => (r = n ∧ Stored sb I Φ f w off (addr.drop i) k k') ∨
        (r = -1 ∧ i < n ∧ Refused (I w) off (min (n - i) maxWrite) ∧ k'.file = k.file ∧
          OpenAt sb I Φ f w off k') ∨
        (r = -1 ∧ ¬Refused (I w) off (min (n - i) maxWrite) ∧ MAXFILE * BSIZE < off + (n - i) ∧
          ∃ m, 0 < m ∧ Stored sb I Φ f w off ((addr.drop i).take m) k k'))
      fun e _ => e = .fs .outOfBlocks ∧ ¬Refused (I w) off (min (n - i) maxWrite) ∧
        sb.nblocks < grown sb I w (off + (n - i)) := by
  induction turns generalizing I Φ k off i with
  | zero =>
    obtain rfl : i = n := by omega
    refine .pure fun k' hk' => .inl ⟨if_pos rfl, ?_⟩
    rw [List.drop_of_length_le hn.le]
    exact .nil (hk' ▸ h) hoff (by rw [hk'])
  | succ turns ih =>
    unfold filewriteLoop
    refine .ite (fun hlt => ?_) fun hge => .pure fun k' hk' => .inl ?_
    · have hsize := h.size_le
      have hbig : MAXFILE * BSIZE < 2 ^ 32 := by decide
      have hpos : 0 < min (n - i) maxWrite := lt_min (by omega) (by decide)
      have hle : min (n - i) maxWrite ≤ n - i := min_le_left ..
      have hdrop : (addr.drop i).length = n - i := by rw [List.length_drop, hn]
      have hchunk : Triple (· = k) (writeChunk sb dev f (addr.drop i) (min (n - i) maxWrite)) _ _ :=
        writeChunk_spec h (by omega) hpos (min_le_right ..) (by omega) dev
      generalize min (n - i) maxWrite = n1 at hpos hle hchunk ⊢
      refine .bind (hchunk.err fun e k' he => ⟨he.1, he.2.1,
        he.2.2.trans_le (grown_mono h (by omega))⟩)
        fun r => .of_state fun k1 hk1 => ?_
      rcases hk1 with ⟨hrefused, rfl, hfile, hopen⟩ | ⟨hok, rfl, x, hx, hopen, hfile⟩
      · refine .pure fun k' hk' => .inr (.inl ⟨if_neg (by omega), hlt, hrefused, ?_, ?_⟩)
        · rw [hk', hfile]
        · rw [hk']
          exact hopen
      show Triple _ (if n1 ≠ n1 then _ else _) _ _
      rw [if_neg (not_not.2 rfl)]
      have htake : ((addr.drop i).take n1).length = n1 := by
        rw [List.length_take, hdrop, min_eq_left hle]
      have hdd : (addr.drop i).drop n1 = addr.drop (i + n1) := by rw [List.drop_drop]
      have hxsize : (update I w x w).size = max (I w).size (off + n1) := by
        rw [update_self, hx, htake]
        rfl
      rw [htake] at hopen
      have hstored : ∀ (more : List UInt8) (k' : Kernel), Stored sb (update I w x)
            (update Φ w (splice (Φ w) off ((addr.drop i).take n1))) f w (off + n1) more
            k1 k' → Stored sb I Φ f w off ((addr.drop i).take n1 ++ more) k k' :=
        fun more k' hmore => .trans hx hfile (htake.symm ▸ hmore)
      refine (ih hopen (by rw [hxsize]; exact le_max_right ..) (by omega)
        (by omega)).mono (fun r k' hr => ?_) fun e k' he => ⟨he.1, hok, ?_⟩
      · rcases hr with ⟨hr, hst⟩ | ⟨hr, hlt', href, hsame, hopen'⟩ | ⟨hr, hok', hbig', m, hm, hst⟩
        · refine .inl ⟨hr, ?_⟩
          have happ := hstored _ _ hst
          rwa [← hdd, List.take_append_drop] at happ
        · -- this chunk is the last that is stored
          refine .inr (.inr ⟨hr, hok, ?_, n1, hpos, ?_⟩)
          · rcases href with hgap | hmax
            · rw [hxsize] at hgap
              omega
            · have := min_le_left (n - (i + n1)) maxWrite
              omega
          · have happ := hstored [] k' (.nil hopen' (by rw [hxsize]; exact le_max_right ..) hsame)
            rwa [List.append_nil] at happ
        · refine .inr (.inr ⟨hr, hok, by omega, n1 + m, by omega, ?_⟩)
          have happ := hstored _ _ hst
          rwa [← hdd, ← List.take_add] at happ
      · have hg := he.2.2
        rw [grown_stretch h.lt (off + n1) (by omega) (by rw [hx, htake])] at hg
        rwa [show off + n1 + (n - (i + n1)) = off + (n - i) by omega] at hg
    · obtain rfl : i = n := by omega
      refine ⟨if_pos rfl, ?_⟩
      rw [List.drop_of_length_le hn.le]
      exact .nil (hk' ▸ h) hoff (by rw [hk'])

theorem filewriteLoop_gap (h : OpenAt sb I Φ f w off k) (hgap : (I w).size < off)
    (hoff : off < 2 ^ 32) {addr : List UInt8} {n turns : ℕ} (hn : addr.length = n) (hpos : 0 < n)
    (dev : Option ℕ) :
    Triple (· = k) (filewriteLoop sb dev f addr n (turns + 1) 0)
      (fun r k' => r = -1 ∧ k'.file = k.file ∧ Settled sb I Φ k'.fs) Never := by
  unfold filewriteLoop
  rw [if_pos hpos, List.drop_zero, Nat.sub_zero]
  have hle : min n maxWrite ≤ n := min_le_left ..
  have hchunk : Triple (· = k) (writeChunk sb dev f addr (min n maxWrite)) _ _ :=
    writeChunk_spec h hoff (lt_min hpos (by decide)) (min_le_right ..) (by omega) dev
  refine .bind (hchunk.err fun e k' he => he.2.1 (.inl hgap)) fun r => .of_state fun k1 hk1 => ?_
  rcases hk1 with ⟨-, rfl, hfile, hopen⟩ | ⟨hok, -⟩
  · refine .pure fun k' hk' => ⟨if_neg (by omega), ?_, ?_⟩
    · rw [hk', hfile]
    · rw [hk']
      exact hopen.settled
  · exact absurd (.inl hgap) hok

end

structure Complete (sb : Super) (I : ℕ → Dinode) (Φ : ℕ → ℕ → Block) (f : Fin NFILE) (w off : ℕ)
    (addr : List UInt8) (k k' : Kernel) : Prop where
  file : k'.file = update k.file f { k.file f with off := off + addr.length }
  content : ∃ x : Dinode, Settled sb (update I w x)
    (update Φ w (splice (Φ w) off addr)) k'.fs ∧
    x.size = if addr = [] then (I w).size else max (I w).size (off + addr.length)

def AllOrNothing (sb : Super) (I : ℕ → Dinode) (Φ : ℕ → ℕ → Block) (f : Fin NFILE) (w off : ℕ)
    (addr : List UInt8) (k : Kernel) (r : Int) (k' : Kernel) : Prop :=
  (r = addr.length ∧ Complete sb I Φ f w off addr k k') ∨
    (r = -1 ∧ k'.file = k.file ∧ Settled sb I Φ k'.fs)

section
variable {sb : Super} {I : ℕ → Dinode} {Φ : ℕ → ℕ → Block} {f : Fin NFILE} {w off : ℕ}
  {k k' : Kernel} {addr : List UInt8}

theorem Complete.nil (h : OpenAt sb I Φ f w off k) : Complete sb I Φ f w off [] k k := by
  refine ⟨?_, I w, ?_, (if_pos rfl).symm⟩
  · have hself : { k.file f with off := off + ([] : List UInt8).length } = k.file f := by
      rw [List.length_nil, Nat.add_zero, ← h.off]
    exact ((congrArg (update k.file f) hself).trans (update_eq_self ..)).symm
  · rw [splice_nil, update_eq_self, update_eq_self]
    exact h.settled

theorem Stored.complete (h : Stored sb I Φ f w off addr k k') (hoff : off ≤ (I w).size) :
    Complete sb I Φ f w off addr k k' ∧ off + addr.length ≤ MAXFILE * BSIZE := by
  obtain ⟨x, hx, hopen, hfile⟩ := h
  have hsize : x.size = max (I w).size (off + addr.length) := by
    rw [hx]
    rfl
  have hmax := hopen.size_le
  rw [update_self, hsize] at hmax
  refine ⟨⟨hfile, x, hopen.settled, ?_⟩, (le_max_right ..).trans hmax⟩
  rw [hsize]
  by_cases haddr : addr = []
  · rw [if_pos haddr, haddr]
    exact max_eq_left hoff
  · rw [if_neg haddr]

theorem filewrite_spec (h : OpenAt sb I Φ f w off k) (htype : (k.file f).type = .inode)
    (hoff : off < 2 ^ 32) {n : ℕ} (hn : addr.length = n) (dev : Option ℕ) (pipe : Int) :
    Prog.Triple (· = k) (filewrite sb dev pipe f addr n)
      (fun r k' =>
        ((k.file f).writable = true ∧ (n = 0 ∨ off ≤ (I w).size ∧ off + n ≤ MAXFILE * BSIZE) ∧
          r = n ∧ Complete sb I Φ f w off addr k k') ∨
        (((k.file f).writable = false ∨ 0 < n ∧ Refused (I w) off (min n maxWrite)) ∧ r = -1 ∧
          k'.file = k.file ∧ Settled sb I Φ k'.fs) ∨
        ((k.file f).writable = true ∧ ¬Refused (I w) off (min n maxWrite) ∧
          MAXFILE * BSIZE < off + n ∧ r = -1 ∧ off < (k'.file f).off))
      fun e _ => e = .fs .outOfBlocks ∧ sb.nblocks < grown sb I w (off + n) := by
  unfold filewrite
  refine .bind (R := fun x k' => x = k.file f ∧ k' = k)
    (.read fun k' hk' => ⟨by rw [hk'], hk'⟩) fun x => .of_and fun hx => ?_
  subst hx
  refine .ite (fun hw => .pure fun k' hk' => .inr (.inl ⟨.inl hw, rfl, ?_, ?_⟩)) fun hw => ?_
  · rw [hk']
  · rw [hk']
    exact h.settled
  rw [Bool.not_eq_false] at hw
  rw [if_neg (by rw [htype]; decide), if_pos htype]
  by_cases hgap : (I w).size < off
  · cases n with
    | zero =>
      obtain rfl : addr = [] := List.length_eq_zero_iff.1 hn
      refine .pure fun k' hk' => .inl ⟨hw, .inl rfl, rfl, ?_⟩
      rw [hk']
      exact .nil h
    | succ n =>
      exact ((filewriteLoop_gap h hgap hoff hn (Nat.succ_pos n) dev).panics _).post
        fun r k' hr => .inr (.inl ⟨.inr ⟨Nat.succ_pos n, .inl hgap⟩, hr⟩)
  · rw [not_lt] at hgap
    refine (filewriteLoop_spec h hgap hn (Nat.zero_le n) (Nat.sub_le ..) dev).mono (fun r k' hr =>
      ?_) fun e k' he => ⟨he.1, he.2.2⟩
    rw [Nat.sub_zero, List.drop_zero] at hr
    rcases hr with ⟨hr, hst⟩ | ⟨hr, hlt, href, hfile, hopen⟩ | ⟨hr, hok, hbig, m, hm, hst⟩
    · obtain ⟨hcomplete, hle⟩ := hst.complete hgap
      exact .inl ⟨hw, .inr ⟨hgap, hn ▸ hle⟩, hr, hcomplete⟩
    · exact .inr (.inl ⟨.inr ⟨hlt, href⟩, hr, hfile, hopen.settled⟩)
    · obtain ⟨x, -, hopen, -⟩ := hst
      have hsize := h.size_le
      refine .inr (.inr ⟨hw, hok, hbig, hr, ?_⟩)
      rw [hopen.off, List.length_take, hn]
      have : 0 < min m n := lt_min hm (by omega)
      omega

end

theorem filewrite_all_or_nothing {sb : Super} {I : ℕ → Dinode} {Φ : ℕ → ℕ → Block}
    {f : Fin NFILE} {w off : ℕ} {k : Kernel} (h : OpenAt sb I Φ f w off k)
    (htype : (k.file f).type = .inode) (hoff : off < 2 ^ 32) {addr : List UInt8} {n : ℕ}
    (hn : addr.length = n) (dev : Option ℕ) (pipe : Int) :
    Prog.Triple (· = k) (filewrite sb dev pipe f addr n)
      (fun r k' =>
        (r = n ↔ (k.file f).writable = true ∧
          (n = 0 ∨ off ≤ (I w).size ∧ off + n ≤ MAXFILE * BSIZE)) ∧
        (AllOrNothing sb I Φ f w off addr k r k' ↔ (k.file f).writable = false ∨
          off + n ≤ MAXFILE * BSIZE ∨ Refused (I w) off (min n maxWrite)))
      fun e _ => e = .fs .outOfBlocks ∧ sb.nblocks < grown sb I w (off + n) := by
  refine (filewrite_spec h htype hoff hn dev pipe).post fun r k' hr => ?_
  rcases hr with ⟨hw, hlen, hr, hcomplete⟩ | ⟨hno, hr, hfile, hset⟩ | ⟨hw, hok, hbig, hr, hlt⟩
  · refine ⟨⟨fun _ => ⟨hw, hlen⟩, fun _ => hr⟩, fun _ => .inr ?_,
      fun _ => .inl ⟨hn ▸ hr, hcomplete⟩⟩
    by_cases hbig : off + n ≤ MAXFILE * BSIZE
    · exact .inl hbig
    · refine .inr (.inr ?_)
      rcases hlen with rfl | ⟨-, hle⟩
      · rw [Nat.zero_min]
        exact not_le.1 hbig
      · exact absurd hle hbig
  · refine ⟨⟨fun h' => ?_, fun ⟨hw, hlen⟩ => ?_⟩, fun _ => ?_, fun _ => .inr ⟨hr, hfile, hset⟩⟩
    · rw [hr] at h'
      omega
    · rcases hno with hno | ⟨hpos, hgap | hbig⟩
      · exact absurd (hno.symm.trans hw) Bool.false_ne_true
      · omega
      · have := min_le_left n maxWrite
        omega
    · exact hno.imp_right fun hrefused => .inr hrefused.2
  · refine ⟨⟨fun h' => ?_, fun ⟨_, hlen⟩ => ?_⟩, fun hall => ?_, fun hcond => ?_⟩
    · rw [hr] at h'
      omega
    · rcases hlen with rfl | ⟨-, hle⟩
      · exact absurd (.inr (by rwa [Nat.zero_min])) hok
      · omega
    · rcases hall with ⟨hlen, -⟩ | ⟨-, hfile, -⟩
      · rw [hr] at hlen
        omega
      · rw [hfile, h.off] at hlt
        exact absurd hlt (lt_irrefl off)
    · rcases hcond with hro | hle | hrefused
      · exact absurd (hro.symm.trans hw) Bool.false_ne_true
      · omega
      · exact absurd hrefused hok

def appending (disk : ℕ → Block) (off : ℕ) : Kernel :=
  ⟨{ State.boot disk with ref := update (fun _ => 0) 2 1 },
    fun _ => ⟨.inode, 1, false, true, 0, 2, off⟩, fun _ => none, ROOTINO,
    fun _ => ⟨0, 0, false, false⟩, []⟩

theorem openAt_appending :
    ∃ st I Φ, (Mkfs.mkfs [Mkfs.largeInput]).result .start = (.ok (), st) ∧
      (Mkfs.table I 2).size = 137 * 512 ∧
      used Mkfs.sb (Mkfs.table I) (fun i => cdiv (Mkfs.table I i).size) = 139 ∧
      ∀ off, OpenAt Mkfs.sb (Mkfs.table I) Φ 0 2 off (appending st.disk off) := by
  obtain ⟨st, I, Φ, hres, h⟩ := Mkfs.mkfs_returns [Mkfs.largeInput] (by decide) Mkfs.fits_largeInput
  have hset := h.settled (by decide) (by decide)
  obtain ⟨htype, hsize⟩ := h.table_file (j := 0) rfl
  refine ⟨st, I, Φ, hres, hsize.trans Mkfs.length_largeInput, ?_, fun off =>
    ⟨hset.forget rfl fun _ _ hv => ⟨hv, rfl⟩, by decide, htype, ?_, rfl, rfl⟩⟩
  · rw [h.used (by decide) (by decide), Mkfs.need]
    simp only [List.map_cons, List.map_nil, List.sum_cons, List.sum_nil, Mkfs.length_largeInput]
    decide
  · show 0 < update (fun _ => 0) 2 1 2
    rw [update_self]
    decide

theorem room_appending {I : ℕ → Dinode} {Φ : ℕ → ℕ → Block} {off : ℕ} {k : Kernel}
    (stop : ℕ) (h : OpenAt Mkfs.sb (Mkfs.table I) Φ 0 2 off k) (hsize : (Mkfs.table I 2).size = 137 * 512)
    (hused : used Mkfs.sb (Mkfs.table I) (fun i => cdiv (Mkfs.table I i).size) = 139)
    (hstop : 139 + blks (max (cdiv (137 * 512)) (cdiv stop)) ≤ Mkfs.sb.nblocks) :
    ¬Mkfs.sb.nblocks < grown Mkfs.sb (Mkfs.table I) 2 stop := by
  have hgrow := used_grow (c := fun i => cdiv (Mkfs.table I i).size) h.lt
    (show (Mkfs.table I 2).type ≠ 0 by rw [h.regular]; decide)
    (max (cdiv (Mkfs.table I 2).size) (cdiv stop))
  rw [hused, hsize] at hgrow
  rw [grown, hsize]
  omega

theorem writei_fits_log_large :
    ∃ s₀, s₀.valid 2 = true ∧ LoggedAtMost MAXOPBLOCKS s₀
      ((writei Mkfs.sb none 2 (List.replicate 1536 1) 70144 1536).result s₀).2 := by
  obtain ⟨st, I, Φ, -, hsize, -, h⟩ := openAt_appending
  have hset := (h 0).settled.load (w := 2) (by rw [(h 0).regular]; decide)
  refine ⟨_, State.load_valid .., writei_fits_log hset (h 0).lt (State.load_valid ..) (h 0).regular
    ?_ (by decide) (by decide) List.length_replicate none⟩
  rw [hsize]
  decide

theorem filewrite_all_or_nothing_large :
    ∃ st I Φ, OpenAt Mkfs.sb (Mkfs.table I) Φ 0 2 512 (appending st 512) ∧
      ∃ k', (filewrite Mkfs.sb none 0 0 (List.replicate 2000 1) 2000).result (appending st 512) =
          (.ok 2000, k') ∧
        AllOrNothing Mkfs.sb (Mkfs.table I) Φ 0 2 512 (List.replicate 2000 1) (appending st 512)
          2000 k' := by
  obtain ⟨st, I, Φ, -, hsize, hused, h⟩ := openAt_appending
  have hspec := filewrite_all_or_nothing (h 512) rfl (by decide)
    (show (List.replicate 2000 (1 : UInt8)).length = 2000 from List.length_replicate) none 0
  have hroom := room_appending (512 + 2000) (h 512) hsize hused (by decide)
  obtain ⟨r, k', hres, hr, hall⟩ := hspec.returns_of (fun e k' he => hroom he.2) rfl
  have hr' : r = 2000 := hr.2 ⟨rfl, .inr ⟨by rw [hsize]; decide, by decide⟩⟩
  rw [hr'] at hres hall
  exact ⟨st.disk, I, Φ, h 512, k', hres, hall.2 (.inr (.inl (by decide)))⟩

theorem filewrite_keeps_chunk :
    ∃ st, (Mkfs.mkfs [Mkfs.largeInput]).result .start = (.ok (), st) ∧
      (Mkfs.sb.dinode (appending st.disk 70144).fs.disk 2).size = 70144 ∧
      ∃ k', (filewrite Mkfs.sb none 0 0 (List.replicate 1537 1) 1537).result
          (appending st.disk 70144) = (.ok (-1), k') ∧
        70144 < (k'.file 0).off ∧ 70144 < (Mkfs.sb.dinode k'.fs.disk 2).size := by
  obtain ⟨st, I, Φ, hres, hsize, hused, h⟩ := openAt_appending
  have hopen := h 70144
  refine ⟨st, hres, (congrArg Dinode.size (hopen.settled.disk 2 hopen.lt)).trans hsize, ?_⟩
  have hroom := room_appending (70144 + (1537 - 0)) hopen hsize hused (by decide)
  have hrun : Prog.Triple (· = appending st.disk 70144)
      (filewriteLoop Mkfs.sb none 0 (.replicate 1537 1) 1537 1537 0) _ _ :=
    filewriteLoop_spec hopen hsize.ge List.length_replicate (Nat.zero_le _) (Nat.sub_le ..) none
  obtain ⟨r, k', hr, hcases⟩ := hrun.returns_of (fun e t he => hroom he.2.2) rfl
  have hlen : (List.replicate 1537 (1 : UInt8)).length = 1537 := List.length_replicate
  rcases hcases with ⟨-, x, hx, hopen', -⟩ | ⟨-, -, hrefused, -⟩ |
    ⟨rfl, -, -, m, hm, x, hx, hopen', -⟩
  · -- the file would be too large
    have hle := hopen'.size_le
    rw [update_self, hx, List.drop_zero, hlen] at hle
    exact absurd ((le_max_right ..).trans hle) (by decide)
  · rcases hrefused with hgap | hbig
    · rw [hsize] at hgap
      exact absurd hgap (by decide)
    · exact absurd hbig (by decide)
  have hpos : 0 < (List.take m (.drop 0 (.replicate 1537 (1 : UInt8)))).length := by
    rw [List.drop_zero, List.length_take, hlen]
    exact lt_min hm (by decide)
  refine ⟨k', hr, ?_, ?_⟩
  · rw [hopen'.off]
    omega
  · rw [hopen'.settled.disk 2 hopen'.lt, update_self, hx]
    exact lt_max_of_lt_right (by omega)

end Xv6.Calls
