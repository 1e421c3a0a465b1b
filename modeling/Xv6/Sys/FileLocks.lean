import Xv6.Sys.CallLocks

namespace Xv6.Sys

open Lib

variable {P : Type} {depth : ℕ → ℕ} {p : P} {last : Option ℕ} {c : Claims} {H : List ℕ}
  {s0 s s' : Fs P} {sb : Super}

theorem Fs.claims_files (s : Fs P) (p : P) : (s.claims p).files = (s.fileClaims p).files := by
  unfold Fs.claims
  split <;> rfl

theorem Fs.claims_files_pos {fd : Fin NOFILE} {f : Fin NFILE} (h : s.ofile p fd = some f) :
    0 < (s.claims p).files f := by
  have hle := Finset.single_le_sum (f := fun d => if s.ofile p d = some f then 1 else 0)
    (fun _ _ => Nat.zero_le _) (Finset.mem_univ fd)
  simp only [h, ↓reduceIte] at hle
  rw [Fs.claims_files, Fs.fileClaims]
  exact hle

theorem Fs.argfd_eq_some {fd : Int} {d : Fin NOFILE} {f : Fin NFILE}
    (h : s.argfd p fd = some (d, f)) : s.ofile p d = some f := by
  unfold Fs.argfd at h
  split at h
  · obtain ⟨g, hg, heq⟩ := Option.map_eq_some_iff.1 h
    cases heq
    exact hg
  · cases h

theorem Fs.spareFd_eq_some {fd : Fin NOFILE} (h : s.spareFd p = some fd) : s.ofile p fd = none := by
  have := List.find?_some h
  simpa using this

section
variable [DecidableEq P] {fd : Fin NOFILE} {f : Fin NFILE}

theorem Fs.fileClaims_setOfile (s : Fs P) (p : P) (fd : Fin NOFILE) (v : Option (Fin NFILE))
    (f : Fin NFILE) : ((s.setOfile p fd v).fileClaims p).files f +
        (if s.ofile p fd = some f then 1 else 0) =
      (s.fileClaims p).files f + if v = some f then 1 else 0 := by
  have h := sum_update_add (s.ofile p) (fun v => if v = some f then 1 else 0) fd v
  simpa [Fs.fileClaims, Fs.setOfile] using h

theorem Fs.claims_clear (h : s.ofile p fd = some f) :
    s.claims p = ((s.setOfile p fd none).claims p).takeFile f := by
  have hfiles : s.fileClaims p = ((s.setOfile p fd none).fileClaims p).takeFile f := by
    ext g
    · rfl
    · rfl
    · have := s.fileClaims_setOfile p fd none g
      simp only [h, Option.some.injEq, reduceCtorEq, ↓reduceIte, add_zero, eq_comm (a := f)] at this
      rw [Claims.takeFile_files, this]
    · rfl
  unfold Fs.claims
  rw [hfiles]
  show (if s.cwd p = 0 then _ else _) = (if s.cwd p = 0 then _ else _ : Claims).takeFile f
  split <;> rfl

theorem Fs.claims_add (h : s.ofile p fd = none) :
    (s.setOfile p fd (some f)).claims p = (s.claims p).takeFile f := by
  have hfiles : (s.setOfile p fd (some f)).fileClaims p = (s.fileClaims p).takeFile f := by
    ext g
    · rfl
    · rfl
    · have := s.fileClaims_setOfile p fd (some f) g
      simp only [h, Option.some.injEq, reduceCtorEq, ↓reduceIte, add_zero, eq_comm (a := f)] at this
      rw [Claims.takeFile_files, this]
    · rfl
  unfold Fs.claims
  rw [hfiles]
  show (if s.cwd p = 0 then _ else _) = (if s.cwd p = 0 then _ else _ : Claims).takeFile f
  split <;> rfl

theorem Fs.setCwd_fileClaims (s : Fs P) (i : ℕ) : (s.setCwd p i).fileClaims p = s.fileClaims p :=
  rfl

theorem Fs.claims_setCwd (s : Fs P) {i : ℕ} (h : i ≠ 0) :
    (s.setCwd p i).claims p = (s.fileClaims p).take i := by
  have hcwd : (s.setCwd p i).cwd p = i := by simp [Fs.setCwd]
  rw [Fs.claims_cwd (by rwa [hcwd]), hcwd, Fs.setCwd_fileClaims]

theorem Fs.claims_setCwd_zero (s : Fs P) : (s.setCwd p 0).claims p = s.fileClaims p := by
  have hcwd : (s.setCwd p 0).cwd p = 0 := by simp [Fs.setCwd]
  rw [Fs.claims, if_pos hcwd, Fs.setCwd_fileClaims]

theorem Knows.setOfile (h : Knows depth c s) (v : Option (Fin NFILE)) :
    Guar depth p c H s c (s.setOfile p fd v) :=
  h.still ⟨fun _ => rfl, fun _ => rfl, rfl⟩ rfl (fun q hq => by simp [Fs.setOfile, hq]) rfl

theorem Knows.setCwd (h : Knows depth c s) (i : ℕ) : Guar depth p c H s c (s.setCwd p i) :=
  h.still ⟨fun _ => rfl, fun _ => rfl, rfl⟩ rfl (fun q hq => by simp [Fs.setCwd, hq]) rfl

end

variable {f : Fin NFILE} {ip off n : ℕ}

theorem Fs.writei_sameTree (s : Fs P) (ip off n : ℕ) : s.SameTree (s.writei ip off n) := by
  unfold Fs.writei
  split
  · refine Fs.setInode_sameTree ?_ ?_
    · unfold Inode.grow
      split <;> rfl
    · unfold Inode.grow
      split <;> rfl
  · exact ⟨fun _ => rfl, fun _ => rfl, rfl⟩

@[simp] theorem Fs.writei_file : (s.writei ip off n).file = s.file := by
  unfold Fs.writei
  split <;> rfl

@[simp] theorem Fs.writei_ofile : (s.writei ip off n).ofile = s.ofile := by
  unfold Fs.writei
  split <;> rfl

@[simp] theorem Fs.writei_cwd : (s.writei ip off n).cwd = s.cwd := by
  unfold Fs.writei
  split <;> rfl

@[simp] theorem Fs.writei_ref : (s.writei ip off n).ref = s.ref := by
  unfold Fs.writei
  split <;> rfl

theorem Knows.touch {c' : Claims} (h : Knows depth c s) (hf : 0 < c.files f) {x : File}
    (hx : (s.file f).Same x) (hunused : x.ref = 0 → x.type = .none) (hheld : c'.held = c.held)
    (hgoing : c'.going = c.going) (hfile : c'.files f + (s.file f).ref ≤ c.files f + x.ref)
    (hfiles : ∀ g, g ≠ f → c'.files g ≤ c.files g) (hfresh : c'.fresh = none) :
    Guar depth p c H s c' (s.setFile f x) := by
  refine h.setFile (.inr hf) (fun _ _ => hx) (fun ht => ?_) hunused (fun i => ?_) hfile hfiles
    hfresh (fun i hi => .inl (hheld ▸ hi)) fun ht => .inl ⟨hx.type ▸ ht, hx.ip.symm⟩
  · rw [hx.ip, hx.writable]
    exact h.good.opened f (hx.type ▸ ht)
  · rw [hx.type, hx.ip, hheld, hgoing]

variable [Fintype P] [DecidableEq P]

theorem keeps_filealloc {Q : Option (Fin NFILE) → Claims → List ℕ → Fs P → Prop}
    (hfresh : c.fresh = none)
    (hnone : ∀ s', Rely p c H s s' → Knows depth c s' → Q none c H s')
    (hsome : ∀ f s', Rely p c H s s' → Knows depth (c.takeFile f) s' → (s'.file f).ref = 1 →
      (s'.file f).type = .none → Q (some f) (c.takeFile f) H s') :
    Keeps depth p Q filealloc last c H s := by
  intro s1 hr1 hk1 _
  beta_reduce
  cases hfind : (List.finRange NFILE).find? fun f => decide ((s1.file f).ref = 0) with
  | none =>
    refine ⟨c, hk1.still ⟨fun _ => rfl, fun _ => rfl, rfl⟩ rfl (fun _ _ => ⟨rfl, rfl⟩) rfl, ?_⟩
    exact keeps_pure fun s2 hr2 => hnone s2 (hr1.trans hr2)
  | some f =>
    have href : (s1.file f).ref = 0 := by simpa using List.find?_some hfind
    have hzero : c.files f = 0 := by
      have := hk1.fileCount f
      omega
    have htype := hk1.good.unused f href
    refine ⟨c.takeFile f, hk1.setFile (.inl href) (fun h => by omega) (fun h => ?_) (fun h => ?_)
      (fun i => le_rfl) ?_ (fun g hg => by simp [hg]) hfresh (fun i hi => .inl hi)
      (fun h => ?_), ?_⟩
    · simp [htype] at h
    · exact htype
    · simp [href]
    · simp [htype] at h
    refine keeps_pure fun s2 hr2 hk2 => ?_
    obtain ⟨hsame, hone⟩ := hr2.sole f (by simp) (by simp [Fs.setFile_file_self])
    have hset : Rely p c H s1 (s1.setFile f { s1.file f with ref := 1 }) :=
      .setFile (fun h => by omega) (fun h => by omega)
    refine hsome f s2 (hr1.trans (hset.trans hr2.of_takeFile)) hk2 hone ?_
    rw [hsame.type, Fs.setFile_file_self]
    exact htype

variable {Q : Unit → Claims → List ℕ → Fs P → Prop}

theorem keeps_fileclose (hfresh : c.fresh = none)
    (hnil : ∀ s', Rely p (c.takeFile f) H s s' → Knows depth (c.takeFile f) s' →
      (s'.file f).type = .inode → H = [])
    (hQ : ∀ s', Rely p c H s s' → Knows depth c s' → Q () c H s') :
    Keeps depth p Q (fileclose f) last (c.takeFile f) H s := by
  intro s1 hr1 hk1 _
  beta_reduce
  have hcount := hk1.fileCount f
  rw [Claims.takeFile_files, if_pos rfl] at hcount
  by_cases hmany : 1 < (s1.file f).ref
  · have hclose : s1.closeFile f = s1.setFile f { s1.file f with ref := (s1.file f).ref - 1 } := by
      simp [Fs.closeFile, hmany]
    refine ⟨c, ?_, ?_⟩
    · rw [hclose]
      exact hk1.touch (by simp) ⟨rfl, rfl, rfl, rfl⟩ (fun h => by simp at h; omega) rfl rfl
        (by simp; omega) (fun g hg => by simp [hg]) hfresh
    · rw [hclose, if_neg (by omega), if_pos hmany]
      have hset : Rely p c H s1 (s1.setFile f { s1.file f with ref := (s1.file f).ref - 1 }) :=
        .setFile (fun _ h => by omega) (fun _ _ => ⟨rfl, rfl, rfl, rfl⟩)
      exact keeps_pure fun s2 hr2 => hQ s2 (hr1.of_takeFile.trans (hset.trans hr2))
  · have hclose : s1.closeFile f = s1.setFile f { s1.file f with ref := 0, type := .none } := by
      simp [Fs.closeFile, hmany]
    have hzero : c.files f = 0 := by omega
    have hset : Rely p c H s1 (s1.setFile f { s1.file f with ref := 0, type := .none }) :=
      .setFile (fun h => by omega) (fun h => by omega)
    have hframe := hr1.of_takeFile.trans hset
    rw [hclose, if_neg (by omega), if_neg hmany]
    by_cases htype : (s1.file f).type = .inode
    · obtain rfl := hnil s1 hr1 hk1 htype
      rw [if_pos htype]
      refine ⟨c.take (s1.file f).ip, hk1.setFile (.inr (by simp)) (fun h => absurd h hmany)
        (fun h => by cases h) (fun _ => rfl) (fun i => ?_) (by simp; omega)
        (fun g hg => by simp [hg]) hfresh (fun i hi => ?_) (fun h => by cases h), ?_⟩
      · by_cases hi : i = (s1.file f).ip
        · simp only [hi, htype, Claims.take_held, Claims.take_going, Claims.takeFile_held,
            Claims.takeFile_going, reduceCtorEq, false_and, and_self, ↓reduceIte]
          omega
        · simp [hi, Ne.symm hi]
      · by_cases hip : i = (s1.file f).ip
        · subst hip
          right
          have hle := Finset.single_le_sum
            (f := fun g => if (s1.file g).type = .inode ∧ (s1.file g).ip = (s1.file f).ip then 1
              else 0) (fun _ _ => Nat.zero_le _) (Finset.mem_univ f)
          simp only [htype, and_self, ↓reduceIte] at hle
          exact hle
        · exact .inl (by simpa [hip] using hi)
      · refine keeps_beginOp fun s2 hr2 => keeps_bind (keeps_iput_last hfresh
          fun s3 hr3 _ last => keeps_endOp_last fun s4 hr4 => ?_)
        exact hQ s4 (hframe.trans (hr2.of_take.trans (hr3.trans hr4)))
    · rw [if_neg htype]
      refine ⟨c, hk1.setFile (.inr (by simp)) (fun h => absurd h hmany) (fun h => by cases h)
        (fun _ => rfl) (fun i => by simp) (by simp; omega) (fun g hg => by simp [hg]) hfresh
        (fun i hi => .inl hi) (fun h => by cases h), ?_⟩
      exact keeps_pure fun s2 hr2 => hQ s2 (hframe.trans hr2)

section
variable {Q : Int → Claims → List ℕ → Fs P → Prop}

theorem keeps_console {r : Int} (hQ : ∀ s', Rely p c [] s s' → Knows depth c s' → Q r c [ip] s') :
    Keeps depth p Q (console ip r) last c [ip] s :=
  keeps_bind <| keeps_iunlock_last fun _ hr1 _ _ => keeps_bind <| keeps_ilock_first
    fun _ _ hr2 _ _ => keeps_pure fun s3 hr3 => hQ s3 (hr1.trans (hr2.trans hr3.of_cons))

theorem keeps_readi {avail : ℕ} (hQ : ∀ r s', Rely p c [] s s' → Knows depth c s' → Q r c [ip] s') :
    Keeps depth p Q (readi ip off n avail) last c [ip] s := by
  refine keeps_look fun s1 hr1 _ => ?_
  have hend : ∀ r, Keeps depth p Q (.pure r) none c [ip] s1 := fun r =>
    keeps_pure fun s2 hr2 => hQ r s2 (hr1.trans hr2).of_cons
  dsimp only
  split
  · split
    · exact keeps_console fun s' hr => hQ _ s' (hr1.of_cons.trans hr)
    · exact hend _
  · exact hend _

theorem keeps_writei
    (hdir : ∀ s', Rely p c [ip] s s' → Knows depth c s' → (s'.inode ip).type ≠ .dir)
    (hQ : ∀ r s', Rely p c [] s s' → Knows depth c s' → Q r c [ip] s') :
    Keeps depth p Q (writei sb ip off n) last c [ip] s := by
  refine keeps_act c (fun s' _ hk _ => hk.still (s'.writei_sameTree ip off n) (by simp)
    (fun _ _ => by simp) (by simp)) fun s1 hr1 hk1 => ?_
  have hr : Rely p c [] s (s1.writei ip off n) :=
    hr1.of_cons.trans (.of_sameTree (s1.writei_sameTree ip off n) (by simp) (by simp) (by simp))
  have hend : ∀ r, Keeps depth p Q (.pure r) none c [ip] (s1.writei ip off n) := fun r =>
    keeps_pure fun s2 hr2 => hQ r s2 (hr.trans hr2.of_cons)
  dsimp only
  split
  · split
    · exact keeps_console fun s' hr' => hQ _ s' (hr.trans hr')
    · exact hend _
  split
  · exact hend _
  split
  · exact hend _
  split
  · rename_i h
    exact absurd h (hdir s1 hr1 hk1)
  split
  · exact keeps_panic (by decide)
  · exact hend _

theorem keeps_advance {Q : Unit → Claims → List ℕ → Fs P → Prop} (hfresh : c.fresh = none)
    (hf : 0 < c.files f) {r : Int} (hQ : ∀ s', Rely p c H s s' → Knows depth c s' → Q () c H s') :
    Keeps depth p Q (advance f r) last c H s := by
  refine keeps_act c (fun s' _ hk _ => ?_) fun s1 hr1 _ => keeps_pure fun s2 hr2 hk2 =>
    hQ s2 (hr1.trans (.trans ?_ hr2)) hk2
  · split
    · exact hk.touch hf ⟨rfl, rfl, rfl, rfl⟩ (hk.good.unused f) rfl rfl le_rfl (fun _ _ => le_rfl)
        hfresh
    · exact hk.still ⟨fun _ => rfl, fun _ => rfl, rfl⟩ rfl (fun _ _ => ⟨rfl, rfl⟩) rfl
  · split
    · exact .setFile (fun _ h => ⟨⟨rfl, rfl, rfl, rfl⟩, h⟩) fun _ _ => ⟨rfl, rfl, rfl, rfl⟩
    · exact .refl ..

theorem keeps_filestat (hr : Rely p (s0.claims p) [] s0 s) :
    Keeps depth p (Over p) (filestat f) last (s0.claims p) [] s := by
  refine keeps_read fun s1 hr1 _ => ?_
  split
  · exact keeps_bind <| keeps_ilock_first fun _ _ hr2 _ _ => keeps_bind <| keeps_iunlock_last
      fun _ hr3 _ _ => keeps_over (hr.trans (hr1.trans (hr2.trans hr3)))
  · exact keeps_over (hr.trans hr1)

variable (hf : 0 < (s0.claims p).files f)
include hf

theorem keeps_fileread {avail : ℕ} (hr : Rely p (s0.claims p) [] s0 s) :
    Keeps depth p (Over p) (fileread f n avail) last (s0.claims p) [] s := by
  refine keeps_read fun s1 hr1 _ => ?_
  split
  · exact keeps_over (hr.trans hr1)
  split
  · refine keeps_bind <| keeps_ilock_first fun _ s2 hr2 _ _ => keeps_read fun s3 hr3 _ =>
      keeps_bind <| keeps_readi fun r s4 hr4 _ _ => keeps_bind <|
        keeps_advance (s0.claims_fresh p) hf fun s5 hr5 _ _ => keeps_bind <| keeps_iunlock_last
          fun s6 hr6 _ _ => keeps_over (hr.trans ?_)
    exact hr1.trans (hr2.trans (hr3.of_cons.trans (hr4.trans (hr5.of_cons.trans hr6))))
  · exact keeps_panic (by decide)

theorem keeps_filewriteLoop {turns i : ℕ} (ht : (s.file f).type = .inode)
    (hw : (s.file f).writable = true) (hr : Rely p (s0.claims p) [] s0 s) :
    Keeps depth p (Over p) (filewriteLoop sb f n turns i) last (s0.claims p) [] s := by
  induction turns generalizing i last s with
  | zero => exact keeps_over hr
  | succ turns ih =>
    unfold filewriteLoop
    split
    · refine keeps_beginOp fun s1 hr1 => keeps_read fun s2 hr2 _ => ?_
      have hr2 := hr1.trans hr2
      generalize hip : (s2.file f).ip = ip
      have hsame := hr2.shared f hf ht
      refine keeps_bind <| keeps_ilock_first fun _ s3 hr3 _ last => keeps_read fun s4 hr4 _ => ?_
      have hr4 := hr3.trans hr4.of_cons
      refine keeps_bind <| keeps_writei (fun s' hr' hk => ?_) fun r s5 hr5 _ last => ?_
      · have hsame' := hsame.trans ((hr4.trans hr'.of_cons).shared f hf (hsame.type.trans ht))
        have hip' : (s'.file f).ip = ip :=
          hsame'.ip.trans (hsame.ip.symm.trans hip)
        rw [← hip']
        exact (hk.good.opened f (hsame'.type.trans ht)).2 (hsame'.writable.trans hw)
      refine keeps_bind <| keeps_advance (s0.claims_fresh p) hf fun s6 hr6 _ last =>
        keeps_bind <| keeps_iunlock_last fun s7 hr7 _ last => keeps_endOp fun s8 hr8 => ?_
      have hr8 := hr2.trans (hr4.trans (hr5.trans (hr6.of_cons.trans (hr7.trans hr8))))
      have hsame8 := hr8.shared f hf ht
      split
      · exact keeps_over (hr.trans hr8)
      split
      · exact keeps_panic (by decide)
      · exact ih (hsame8.type.trans ht) (hsame8.writable.trans hw) (hr.trans hr8)
    · exact keeps_over hr

theorem keeps_filewrite (hr : Rely p (s0.claims p) [] s0 s) :
    Keeps depth p (Over p) (filewrite sb f n) last (s0.claims p) [] s := by
  refine keeps_read fun s1 hr1 _ => ?_
  split
  · exact keeps_over (hr.trans hr1)
  split
  · rename_i hw ht
    exact keeps_filewriteLoop hf ht (by simpa using hw) (hr.trans hr1)
  · exact keeps_panic (by decide)

end

theorem keeps_filedup (hfresh : c.fresh = none) (hf : 0 < c.files f)
    (hQ : ∀ s', s'.claims p = s.claims p → Q () (c.takeFile f) H s') :
    Keeps depth p Q (filedup f) last c H s := by
  refine keeps_act (c.takeFile f) (fun s' _ hk _ => hk.touch hf ⟨rfl, rfl, rfl, rfl⟩
    (fun h => by simp at h) rfl rfl ?_ (fun g hg => by simp [hg]) hfresh) fun s1 hr1 _ => ?_
  · simp only [Claims.takeFile_files, ↓reduceIte]
    omega
  split
  · exact keeps_panic (by decide)
  · refine keeps_pure fun s2 hr2 _ => hQ s2 ?_
    rw [hr2.claims, ← hr1.claims]
    rfl

theorem keeps_fdalloc {Q : Option (Fin NOFILE) → Claims → List ℕ → Fs P → Prop}
    (hnone : ∀ s', Rely p c H s s' → Knows depth c s' → Q none c H s')
    (hsome : ∀ fd s1 s', Rely p c H s s1 → s1.ofile p fd = none →
      Rely p c H (s1.setOfile p fd (some f)) s' → Knows depth c s' → Q (some fd) c H s') :
    Keeps depth p Q (fdalloc p f) last c H s := by
  intro s1 hr1 hk1 _
  beta_reduce
  refine ⟨c, ?_, ?_⟩
  · cases s1.spareFd p with
    | none => exact hk1.still ⟨fun _ => rfl, fun _ => rfl, rfl⟩ rfl (fun _ _ => ⟨rfl, rfl⟩) rfl
    | some fd => exact hk1.setOfile _
  · cases hfd : s1.spareFd p with
    | none => exact keeps_pure fun s2 hr2 => hnone s2 (hr1.trans hr2)
    | some fd =>
      exact keeps_pure fun s2 hr2 => hsome fd s1 s2 hr1 (Fs.spareFd_eq_some hfd) hr2

theorem keeps_openFile {ip : ℕ} {omode : UInt32} (hr : Rely p (s0.claims p) [] s0 s)
    (hmode : (s.inode ip).type = .dir → omode = 0) :
    Keeps depth p (Over p) (openFile p ip omode) last ((s0.claims p).take ip) [ip] s := by
  have hfresh := s0.claims_fresh p
  refine keeps_bind (keeps_filealloc hfresh
    (fun s1 hr1 _ last => keeps_putDone (hr.trans hr1.of_take.of_cons))
    fun f s1 hr1 _ href htype last => ?_)
  rw [Claims.take_takeFile]
  refine keeps_bind (keeps_fdalloc (fun s2 hr2 _ last => ?_) fun fd s2 s3 hr2 hfd hr3 _ last => ?_)
  · -- No descriptor: the file is still as `filealloc` left it.
    rw [← Claims.take_takeFile]
    refine keeps_bind (keeps_fileclose hfresh (fun s3 hr3 _ ht => ?_) fun s3 hr3 _ last =>
      keeps_putDone ?_)
    · have := ((hr2.trans hr3).sole f (by simp) href).1.type
      simp [this, htype] at ht
    · exact hr.trans ((hr1.trans (hr2.of_takeFile.trans hr3)).of_take.of_cons)
  · refine keeps_bind (keeps_iunlock_last fun s4 hr4 _ last => keeps_endOp fun s5 hr5 =>
      keeps_modify ((s0.claims p).takeFile f) (fun s6 hr6 hk6 _ => ?_)
        fun s6 hr6 _ => keeps_pure fun s7 hr7 _ => ⟨rfl, ?_⟩)
    · have hset : (s2.setOfile p fd (some f)).file f = s2.file f := rfl
      obtain ⟨hsame2, href2⟩ := hr2.sole f (by simp) href
      have hr6 := hr3.of_cons.trans (hr4.trans (hr5.trans hr6))
      obtain ⟨hsame, href6⟩ := hr6.sole f (by simp) (hset ▸ href2)
      have htype6 : (s6.file f).type = .none :=
        hsame.type.trans ((congrArg _ hset).trans (hsame2.type.trans htype))
      have hdir : (s6.inode ip).type = (s.inode ip).type :=
        (hr6.kept ip (.inl (by simp))).1.trans ((hr2.kept ip (.inl (by simp))).1.trans
          (hr1.kept ip (.inl (by simp))).1)
      refine hk6.setFile (.inr (by simp)) (fun h => by omega)
        (fun _ => ⟨hk6.live ip (by simp), fun hw hd => ?_⟩) (fun h => ?_) (fun i => ?_) ?_
        (fun g _ => le_rfl) hfresh (fun i hi => .inl ?_) fun _ => .inr (by simp [openedFile])
      · rw [hmode (hdir ▸ hd)] at hw
        simp [openedFile, O_WRONLY, O_RDWR] at hw
      · simp [openedFile, href6] at h
      · simp only [openedFile, htype6, Claims.take_held, Claims.take_going, Claims.takeFile_held,
          Claims.takeFile_going, reduceCtorEq, false_and, true_and, ↓reduceIte, eq_comm (a := ip)]
        omega
      · simp [openedFile]
      · simp only [Claims.take_held]
        omega
    · rw [hr7.claims]
      show (s0.claims p).takeFile f = s6.claims p
      rw [hr6.claims, hr5.claims, hr4.claims, hr3.claims, Fs.claims_add hfd, hr2.claims,
        hr1.claims, hr.claims]

theorem keeps_sysOpen {path : Option Path} {omode : UInt32} (hcwd : s.cwd p ≠ 0) :
    Keeps depth p (Over p) (sysOpen sb p path omode) last (s.claims p) [] s := by
  unfold sysOpen
  split
  · exact keeps_over (.refl ..)
  refine keeps_beginOp fun s1 hr1 => keeps_bind (keeps_openInode (s.claims_fresh p)
    (hr1.held_cwd hcwd) (fun s2 hr2 _ last => keeps_done (hr1.trans hr2))
    fun ip s2 hr2 _ hmode last => keeps_openFile (hr1.trans hr2) hmode)

theorem keeps_sysChdir {path : Option Path} (hcwd : s.cwd p ≠ 0) :
    Keeps depth p (Over p) (sysChdir sb p path) last (s.claims p) [] s := by
  refine keeps_beginOp fun s1 hr1 => ?_
  split
  · exact keeps_done hr1
  refine keeps_bind (keeps_namei (s.claims_fresh p) (hr1.held_cwd hcwd)
    (fun s2 hr2 _ last => keeps_done (hr1.trans hr2)) fun ip s2 hr2 _ last => ?_)
  refine keeps_bind (keeps_ilock_first fun hip s3 hr3 _ last => keeps_read fun s4 hr4 _ => ?_)
  have hr4 := hr1.trans (hr2.trans (hr3.of_take.trans hr4.of_take.of_cons))
  split
  · exact keeps_putDone hr4
  refine keeps_bind (keeps_iunlock_last fun s5 hr5 _ last => keeps_read fun s6 hr6 _ => ?_)
  have hr6 := hr4.trans (hr5.trans hr6).of_take
  rw [Fs.claims_cwd hcwd, Claims.take_comm, hr6.cwd]
  refine keeps_bind (keeps_iput_last rfl fun s7 hr7 _ last => keeps_endOp fun s8 hr8 =>
    keeps_modify _ (fun s' _ hk _ => hk.setCwd ip) fun s9 hr9 _ =>
      keeps_pure fun s10 hr10 _ => ⟨rfl, ?_⟩)
  have hfiles := Fs.fileClaims_congr ((hr7.trans (hr8.trans hr9)).ofile.trans hr6.ofile)
  rw [hr10.claims, Fs.claims_setCwd _ hip, hfiles]

variable {fd : Int}

theorem keeps_withFd {k : Fin NOFILE → Fin NFILE → Op P Int}
    (h : ∀ d f s', Rely p (s.claims p) [] s s' → s'.ofile p d = some f → 0 < (s'.claims p).files f →
      Keeps depth p (Over p) (k d f) none (s'.claims p) [] s') :
    Keeps depth p (Over p) (withFd p fd k) last (s.claims p) [] s := by
  refine keeps_read fun s1 hr1 _ => ?_
  split
  · exact keeps_over hr1
  · rename_i d f hfd
    have hof := Fs.argfd_eq_some hfd
    rw [← hr1.claims]
    exact h d f s1 hr1 hof (Fs.claims_files_pos hof)

theorem keeps_sysRead {fd n : Int} {avail : ℕ} :
    Keeps depth p (Over p) (sysRead p fd n avail) last (s.claims p) [] s := by
  refine keeps_withFd fun d f s1 hr1 _ hf => ?_
  split
  · exact keeps_over (.refl ..)
  · exact keeps_fileread hf (.refl ..)

theorem keeps_sysWrite {fd n : Int} :
    Keeps depth p (Over p) (sysWrite sb p fd n) last (s.claims p) [] s := by
  refine keeps_withFd fun d f s1 hr1 _ hf => ?_
  split
  · exact keeps_over (.refl ..)
  · exact keeps_filewrite hf (.refl ..)

theorem keeps_sysClose : Keeps depth p (Over p) (sysClose p fd) last (s.claims p) [] s := by
  refine keeps_withFd fun d f s1 _ hd _ => keeps_modify _ (fun s' _ hk _ => hk.setOfile none)
    fun s2 hr2 _ => ?_
  have hd2 : s2.ofile p d = some f := by rw [hr2.ofile, hd]
  rw [← hr2.claims, Fs.claims_clear hd2]
  exact keeps_bind (keeps_fileclose (Fs.claims_fresh _ p) (fun _ _ _ _ => rfl)
    fun s3 hr3 _ last => keeps_over hr3)

theorem keeps_sysDup : Keeps depth p (Over p) (sysDup p fd) last (s.claims p) [] s := by
  refine keeps_withFd fun d f s1 _ _ hf => keeps_bind (keeps_fdalloc
    (fun s2 hr2 _ last => keeps_over hr2)
    fun d' s2 s3 hr2 hd' hr3 _ last => keeps_bind (keeps_filedup (s1.claims_fresh p) hf
      fun s4 hs4 last => keeps_pure fun s5 hr5 _ => ⟨rfl, ?_⟩))
  rw [hr5.claims, hs4, hr3.claims, Fs.claims_add hd', hr2.claims]

theorem keeps_sysFstat : Keeps depth p (Over p) (sysFstat p fd) last (s.claims p) [] s :=
  keeps_withFd fun _ _ _ _ _ _ => keeps_filestat (.refl ..)

theorem keeps_exitFiles {fds : List (Fin NOFILE)}
    (hQ : ∀ s', s'.cwd p = s.cwd p → Q () (s'.claims p) [] s') :
    Keeps depth p Q (exitFiles p fds) last (s.claims p) [] s := by
  induction fds generalizing s last with
  | nil =>
    refine keeps_pure fun s1 hr1 _ => ?_
    rw [← hr1.claims]
    exact hQ s1 hr1.cwd
  | cons fd rest ih =>
    refine keeps_read fun s1 hr1 _ => ?_
    rw [← hr1.claims]
    cases hfd : s1.ofile p fd with
    | none => exact ih fun s' hs' => hQ s' (hs'.trans hr1.cwd)
    | some f =>
      rw [Fs.claims_clear hfd]
      refine keeps_bind (keeps_fileclose (Fs.claims_fresh _ p) (fun _ _ _ _ => rfl)
        fun s2 hr2 _ last => keeps_modify _ (fun s' _ hk _ => hk.setOfile none) fun s3 hr3 _ => ?_)
      have hr3 := hr2.trans hr3
      have hclaims : (s3.setOfile p fd none).claims p = (s1.setOfile p fd none).claims p := by
        refine Fs.claims_congr ?_ hr3.cwd
        simp [Fs.setOfile, hr3.ofile]
      rw [← hclaims]
      exact ih fun s' hs' => hQ s' (hs'.trans (hr3.cwd.trans hr1.cwd))

theorem keeps_exit (hcwd : s.cwd p ≠ 0) :
    Keeps depth p (Over p) (exit p) last (s.claims p) [] s := by
  refine keeps_bind (keeps_exitFiles fun s1 hs1 last => keeps_beginOp fun s2 hr2 =>
    keeps_read fun s3 hr3 _ => ?_)
  have hr3 := hr2.trans hr3
  rw [Fs.claims_cwd (hs1 ▸ hcwd), hr3.cwd]
  refine keeps_bind (keeps_iput_last rfl fun s4 hr4 _ last => keeps_endOp fun s5 hr5 =>
    keeps_modify _ (fun s' _ hk _ => hk.setCwd 0) fun s6 hr6 _ =>
      keeps_pure fun s7 hr7 _ => ⟨rfl, ?_⟩)
  rw [hr7.claims, Fs.claims_setCwd_zero, Fs.fileClaims_congr
    ((hr4.trans (hr5.trans hr6)).ofile.trans hr3.ofile)]

end Xv6.Sys
