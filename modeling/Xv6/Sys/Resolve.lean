import Mathlib.Data.List.TakeWhile
import Xv6.Lib.Solo
import Xv6.Sys.Names
import Xv6.Sys.Refs

namespace Xv6.Sys

open Lib

variable {P : Type}

def components (path : Path) : List Name :=
  ((path.splitOn slash).filter (· ≠ [])).map (List.take DIRSIZ)

theorem components_slash (path : Path) : components (slash :: path) = components path := by
  rw [components, List.splitOn, List.splitOnP_cons_eq_if_modifyHead, if_pos (by simp),
    List.filter_cons_of_neg (by simp)]
  rfl

theorem components_dropSlashes (path : Path) :
    components (path.dropWhile (· = slash)) = components path := by
  induction path with
  | nil => rfl
  | cons c path ih =>
    by_cases hc : c = slash
    · rw [List.dropWhile_cons_of_pos (by simpa using hc), ih, hc, components_slash]
    · rw [List.dropWhile_cons_of_neg (by simpa using hc)]

variable {path : Path}

theorem components_elem (hne : path.takeWhile (· ≠ slash) ≠ []) : components path =
      (path.takeWhile (· ≠ slash)).take DIRSIZ :: components (path.dropWhile (· ≠ slash)) := by
  have hsplit := (List.takeWhile_append_dropWhile (p := (· ≠ slash)) (l := path)).symm
  have hword : (path.takeWhile (· ≠ slash)).splitOnP (· == slash) =
      [path.takeWhile (· ≠ slash)] := by
    refine List.splitOnP_eq_singleton fun c hc => ?_
    simpa using List.mem_takeWhile_imp hc
  generalize path.takeWhile (· ≠ slash) = elem at hne hsplit hword ⊢
  rcases hrest : path.dropWhile (· ≠ slash) with _ | ⟨c, rest⟩
  · rw [hrest, List.append_nil] at hsplit
    rw [hsplit, components, List.splitOn, hword, List.filter_cons_of_pos (by simpa using hne)]
    rfl
  obtain rfl : c = slash := by
    have := List.head?_dropWhile_not (· ≠ slash) path
    rw [hrest] at this
    simpa using this
  rw [hrest] at hsplit
  rw [components_slash, hsplit, components, List.splitOn,
    List.splitOnP_append_cons _ _ (by simp), hword, List.cons_append, List.nil_append,
    List.filter_cons_of_pos (by simpa using hne)]
  rfl

theorem skipelem_none : skipelem path = none ↔ components path = [] := by
  rw [← components_dropSlashes, skipelem]
  have hhead := List.head?_dropWhile_not (· = slash) path
  dsimp only
  generalize path.dropWhile (· = slash) = rest at hhead ⊢
  rcases rest with _ | ⟨c, rest⟩
  · exact iff_of_true (if_pos rfl) rfl
  · have hc : c ≠ slash := by simpa using hhead
    rw [if_neg (List.cons_ne_nil _ _), components_elem (by simp [hc])]
    exact iff_of_false (Option.some_ne_none _) (List.cons_ne_nil _ _)

theorem skipelem_some {rest : Path} {name : Name} (h : skipelem path = some (name, rest)) :
    components path = name :: components rest := by
  rw [← components_dropSlashes]
  rw [skipelem] at h
  have hhead := List.head?_dropWhile_not (· = slash) path
  dsimp only at h
  generalize path.dropWhile (· = slash) = tail at h hhead ⊢
  split at h
  · cases h
  rename_i hne
  obtain ⟨rfl, rfl⟩ := Prod.mk.inj (Option.some.inj h)
  rw [components_dropSlashes]
  refine components_elem fun hnil => ?_
  rcases tail with _ | ⟨c, tail⟩
  · exact hne rfl
  · have hc : c ≠ slash := by simpa using hhead
    simp [hc] at hnil

theorem length_skipelem {rest : Path} {name : Name} (h : skipelem path = some (name, rest)) :
    rest.length < path.length := by
  have hsub := (List.dropWhile_suffix (· = slash) (l := path)).length_le
  rw [skipelem] at h
  have hhead := List.head?_dropWhile_not (· = slash) path
  dsimp only at h
  generalize path.dropWhile (· = slash) = tail at h hhead hsub
  split at h
  · cases h
  rename_i hne
  obtain ⟨-, rfl⟩ := Prod.mk.inj (Option.some.inj h)
  rcases tail with _ | ⟨c, tail⟩
  · exact absurd rfl hne
  have hc : c ≠ slash := by simpa using hhead
  rw [List.dropWhile_cons_of_pos (by simpa using hc)]
  have h1 := (List.dropWhile_suffix (· = slash) (l := tail.dropWhile (· ≠ slash))).length_le
  have h2 := (List.dropWhile_suffix (· ≠ slash) (l := tail)).length_le
  rw [List.length_cons] at hsub
  omega

theorem elemsUpTo_eq {n : ℕ} (h : path.length ≤ n) : elemsUpTo n path = components path := by
  induction n generalizing path with
  | zero => rw [List.length_eq_zero_iff.1 (Nat.le_zero.1 h)]; rfl
  | succ n ih =>
    rw [elemsUpTo]
    rcases hs : skipelem path with _ | ⟨name, rest⟩
    · exact (skipelem_none.1 hs).symm
    · have hlt := length_skipelem hs
      rw [skipelem_some hs]
      exact congrArg (name :: ·) (ih (by omega))

theorem elems_eq (path : Path) : elems path = components path := elemsUpTo_eq le_rfl

def enter (t : Table) (ip : ℕ) (name : Name) : Option ℕ :=
  if (t ip).type = .dir then lookup (t ip) name else none

def follow (t : Table) (ip : ℕ) (names : List Name) : Option ℕ := names.foldlM (enter t) ip

def followParent (t : Table) (ip : ℕ) (names : List Name) : Option (ℕ × Name) := do
  let last ← names.getLast?
  let dp ← follow t ip names.dropLast
  if (t dp).type = .dir then some (dp, last) else none

theorem walk_false (t : Table) (ip : ℕ) (names : List Name) :
    walk t false ip names = (follow t ip names).map fun i => (i, []) := by
  induction names generalizing ip with
  | nil => rfl
  | cons name rest ih =>
    rw [walk, follow, List.foldlM_cons, enter]
    by_cases hd : (t ip).type = .dir
    · rw [if_neg (not_not.2 hd), if_pos hd, Bool.false_and, if_neg Bool.false_ne_true]
      cases lookup (t ip) name with
      | none => rfl
      | some next => exact ih next
    · rw [if_pos hd, if_neg hd]
      rfl

theorem walk_true (t : Table) (ip : ℕ) (names : List Name) :
    walk t true ip names = followParent t ip names := by
  induction names generalizing ip with
  | nil => rfl
  | cons name rest ih =>
    rw [walk]
    rcases rest with _ | ⟨name', rest⟩
    · by_cases hd : (t ip).type = .dir
      · have hlast : (true && ([] : List Name).isEmpty) = true := rfl
        rw [if_neg (not_not.2 hd), if_pos hlast]
        exact (if_pos hd).symm
      · rw [if_pos hd]
        exact (if_neg hd).symm
    · rw [followParent, List.dropLast_cons_cons, follow, List.foldlM_cons, enter]
      have hlast : (name :: name' :: rest).getLast? = (name' :: rest).getLast? :=
        List.getLast?_cons_cons
      rw [hlast]
      by_cases hd : (t ip).type = .dir
      · rw [if_neg (not_not.2 hd), if_neg (by simp), if_pos hd]
        cases lookup (t ip) name with
        | none =>
          cases (name' :: rest).getLast? with
          | none => rfl
          | some last => rfl
        | some next => exact ih next
      · rw [if_pos hd, if_neg hd]
        cases (name' :: rest).getLast? with
        | none => rfl
        | some last => rfl

def LookupPanic (sb : Super) (s₀ : Fs P) (e : Panic) : Prop :=
  e = .igetNoInodes ∧ NINODE ≤ s₀.cached sb + 1

section
variable {sb : Super} {s0 s : Fs P} {m : Multiset ℕ} {ip i : ℕ} {H : Finset ℕ}

theorem Looking.cached_le (h : Looking s0 m s) : s.cached sb ≤ s0.cached sb + m.card := by
  unfold Fs.cached
  simp only [h.ref]
  exact countP_add_count_le ..

variable {Q : Unit → Finset ℕ → Fs P → Prop}

section
variable (h : Looking s0 m s)
include h

theorem solo_iget (hm : m.card ≤ 1) (hQ : Looking s0 (i ::ₘ m) (s.iget i) → Q () H (s.iget i)) :
    (iget sb i).Solo (LookupPanic sb s0) Q H s := by
  show Prog.Solo _ _ (if s.ref i = 0 ∧ NINODE ≤ s.cached sb then _ else _) H (s.iget i)
  split
  · rename_i hfull
    have hle : s.cached sb ≤ s0.cached sb + m.card := h.cached_le
    exact ⟨rfl, by omega⟩
  · exact hQ h.iget

theorem solo_ilock (hip : ip ≠ 0) (hm : ip ∈ m)
    (ht : (s0.inode ip).type ≠ .free) (hQ : Looking s0 m (s.load ip) → Q () {ip} (s.load ip)) :
    (ilock ip).Solo (LookupPanic sb s0) Q ∅ s := by
  have href := h.ref_pos hm
  show Prog.Solo _ _ (if ip = 0 ∨ s.ref ip < 1 then _ else _) ∅ s
  rw [if_neg (by omega)]
  refine ⟨Finset.notMem_empty ip, ?_⟩
  show Prog.Solo _ _ (if s.valid ip = false ∧ (s.inode ip).type = .free then _ else _) _ (s.load ip)
  rw [h.inode, if_neg fun hfree => ht hfree.2]
  exact hQ (h.load ht)

theorem solo_iunlock (hip : ip ≠ 0) (hm : ip ∈ m) (hQ : Q () ∅ s) :
    (iunlock ip).Solo (LookupPanic sb s0) Q {ip} s := by
  have href := h.ref_pos hm
  show Prog.Solo _ _ (if ip = 0 ∨ decide (ip ∈ ({ip} : Finset ℕ)) = false ∨ s.ref ip < 1 then _
    else _) {ip} s
  rw [if_neg (by simp [hip]; omega)]
  show Q () (({ip} : Finset ℕ).erase ip) s
  rwa [Finset.erase_singleton]

end

theorem solo_iput {site : Site} (h : Looking s0 (ip ::ₘ m) s) (hs : Sound s0)
    (hQ : Looking s0 m ((s.reap ip).drop ip) → Q () ∅ ((s.reap ip).drop ip)) :
    (iput site ip).Solo (LookupPanic sb s0) Q ∅ s := by
  refine ⟨Finset.notMem_empty ip, ?_⟩
  show Q () ((insert ip ∅ : Finset ℕ).erase ip) ((s.reap ip).drop ip)
  rw [Finset.erase_insert (Finset.notMem_empty ip)]
  exact hQ (h.put hs)

theorem solo_iunlockput {site : Site} (h : Looking s0 (ip ::ₘ m) s) (hip : ip ≠ 0) (hs : Sound s0)
    (hQ : Looking s0 m ((s.reap ip).drop ip) → Q () ∅ ((s.reap ip).drop ip)) :
    (iunlockput site ip).Solo (LookupPanic sb s0) Q {ip} s :=
  Prog.solo_bind (solo_iunlock h hip (Multiset.mem_cons_self ip m) (solo_iput h hs hQ))

def LookedUp (s₀ : Fs P) (goal : Option (ℕ × Name)) (r : Option (ℕ × Name)) (H : Finset ℕ)
    (s : Fs P) : Prop :=
  r = goal ∧ H = ∅ ∧ Looking s₀ (goal.elim 0 fun x => {x.1}) s

theorem solo_namexLoop (hs : Sound s0) (hc : Closed s0) {par : Bool} {names : List Name}
    (hip : ip ≠ 0) (ht : (s0.inode ip).type ≠ .free) (h : Looking s0 {ip} s) :
    (namexLoop sb par ip names).Solo (LookupPanic sb s0)
      (LookedUp s0 (walk s0.inode par ip names)) ∅ s := by
  induction names generalizing ip s with
  | nil =>
    unfold namexLoop
    cases par with
    | true => exact Prog.solo_bind (solo_iput h hs fun h' => ⟨rfl, rfl, h'⟩)
    | false => exact ⟨rfl, rfl, h⟩
  | cons name rest ih =>
    unfold namexLoop
    refine Prog.solo_bind (solo_ilock h hip (Multiset.mem_singleton_self ip) ht
      fun h1 => Prog.solo_bind ?_)
    have hfail : walk s0.inode par ip (name :: rest) = none →
        (iunlockput .iput ip >>= fun _ => pure none : Op P (Option (ℕ × Name))).Solo
          (LookupPanic sb s0) (LookedUp s0 (walk s0.inode par ip (name :: rest))) {ip}
          (s.load ip) := by
      intro hw
      rw [hw]
      exact Prog.solo_bind (solo_iunlockput h1 hip hs fun h' => ⟨rfl, rfl, h'⟩)
    show Prog.Solo _ _ (if ((s.load ip).inode ip).type ≠ .dir then _ else _) {ip} (s.load ip)
    rw [h1.inode]
    split
    · rename_i hdir
      exact hfail (by rw [walk, if_pos hdir])
    rename_i hdir
    rw [not_not] at hdir
    split
    · rename_i hlast
      refine Prog.solo_bind (solo_iunlock h1 hip (Multiset.mem_singleton_self ip) ?_)
      have hw : walk s0.inode par ip (name :: rest) = some (ip, name) := by
        rw [walk, if_neg (not_not.2 hdir), if_pos hlast]
      rw [hw]
      exact ⟨rfl, rfl, h1⟩
    rename_i hlast
    have hw := @walk_step ip s0.inode par name rest hdir hlast
    refine Prog.solo_bind ?_
    show Prog.Solo _ _ (if ((s.load ip).inode ip).type ≠ .dir then _ else _) {ip} (s.load ip)
    rw [h1.inode, if_neg (not_not.2 hdir)]
    have hlook : lookup (s0.inode ip) name =
        ((s.load ip).slot ip name).map fun n => ((s.load ip).entry ip n).inum := by
      rw [← h1.inode]
      exact Fs.lookup_slot
    cases hslot : (s.load ip).slot ip name with
    | none =>
      rw [hslot] at hlook
      exact hfail (by rw [hw, hlook]; rfl)
    | some n =>
      rw [hslot, Option.map_some] at hlook
      obtain ⟨e, he, hz, -, hj⟩ := lookup_eq_some hlook
      refine Prog.solo_bind (solo_iget h1 (Multiset.card_singleton ip).le fun h2 => ?_)
      rw [← Multiset.singleton_add, add_comm, Multiset.singleton_add] at h2
      refine Prog.solo_bind (solo_iunlockput h2 hip hs fun h3 => ?_)
      rw [hw, hlook]
      exact ih (hj ▸ hz) (hj ▸ hc.entries ip hdir e he hz) h3

end

def Fs.origin (s : Fs P) (p : P) (path : Path) : ℕ :=
  if path.head? = some slash then ROOTINO else s.cwd p

def Fs.target (s : Fs P) (p : P) (path : Path) (par : Bool) : Option (ℕ × Name) :=
  if par then followParent s.inode (s.origin p path) (components path)
  else (follow s.inode (s.origin p path) (components path)).map fun i => (i, [])

theorem walk_components (s : Fs P) (p : P) (path : Path) (par : Bool) :
    walk s.inode par (s.origin p path) (elems path) = s.target p path par := by
  rw [elems_eq]
  cases par with
  | true => exact walk_true ..
  | false => exact walk_false ..

def NamexEnds (sb : Super) (s : Fs P) (p : P) (path : Path) (par : Bool) :
    Outcome P ℕ Panic (Fs P) (Option (ℕ × Name)) → Prop
  | .done r lock s' => r = s.target p path par ∧ lock = (fun _ => none) ∧ s'.inode = s.inode ∧
      SameUse s s' ∧ ∀ i, s'.ref i = s.ref i + if r.map Prod.fst = some i then 1 else 0
  | .panicked e => LookupPanic sb s e
  | .blocked _ => False

section
variable {s : Fs P} {p : P}

theorem origin_live (path : Path) (hc : Closed s) (hcwd : s.cwd p ≠ 0) :
    s.origin p path ≠ 0 ∧ (s.inode (s.origin p path)).type ≠ .free := by
  unfold Fs.origin
  split
  · exact ⟨by decide, hc.origin ROOTINO (.inl rfl)⟩
  · exact ⟨hcwd, hc.origin _ (.inr ⟨hcwd, p, rfl⟩)⟩

theorem solo_namex (sb : Super) (path : Path) (par : Bool) (hs : Sound s) (hc : Closed s)
    (hcwd : s.cwd p ≠ 0) :
    (namex sb p path par).Solo (LookupPanic sb s) (LookedUp s (s.target p path par)) ∅ s := by
  rw [← walk_components]
  obtain ⟨hip, ht⟩ := origin_live path hc hcwd
  unfold namex
  unfold Fs.origin at hip ht ⊢
  split
  · rename_i hslash
    rw [if_pos hslash] at hip ht
    exact Prog.solo_bind (solo_iget (.start hs) (Nat.zero_le _) fun h =>
      solo_namexLoop hs hc hip ht h)
  · rename_i hslash
    rw [if_neg hslash] at hip ht
    refine Prog.solo_bind (Prog.solo_bind ?_)
    exact solo_namexLoop hs hc hip ht ((Looking.start hs).idup (hs.cwd p hcwd))

theorem LookedUp.count {goal r : Option (ℕ × Name)} {H : Finset ℕ} {s' : Fs P}
    (h : LookedUp s goal r H s') (i : ℕ) :
    s'.ref i = s.ref i + if r.map Prod.fst = some i then 1 else 0 := by
  rw [h.2.2.ref i, h.1]
  rcases goal with _ | ⟨j, name⟩
  · rfl
  rw [Option.map_some]
  show s.ref i + ({j} : Multiset ℕ).count i = _
  rw [Multiset.count_singleton]
  congr 1
  by_cases hij : i = j
  · rw [if_pos hij, if_pos (by rw [hij])]
  · rw [if_neg hij, if_neg fun hji => hij (Option.some.inj hji).symm]

end

theorem namex_follows [DecidableEq P] (sb : Super) (s : Fs P) (hs : Sound s) (hc : Closed s)
    (p : P) (hcwd : s.cwd p ≠ 0) (path : Path) (par : Bool) :
    elems path = components path ∧ (skipelem path = none ↔ components path = []) ∧
      (∀ name rest, skipelem path = some (name, rest) →
        components path = name :: components rest) ∧
      NamexEnds sb s p path par ((namex sb p path par).run p (fun _ => none) s) := by
  refine ⟨elems_eq path, skipelem_none, fun _ _ => skipelem_some, ?_⟩
  have hlock : Prog.LockedBy p (∅ : Finset ℕ) fun _ => none := fun i =>
    (if_neg (Finset.notMem_empty i)).symm
  have hend := Prog.run_of_solo hlock (solo_namex sb path par hs hc hcwd)
  cases hr : (namex sb p path par).run p (fun _ => none) s with
  | done r lock s' =>
    rw [hr] at hend
    obtain ⟨H, hup, hby⟩ := hend
    refine ⟨hup.1, funext fun i => ?_, hup.2.2.inode, hup.2.2.use, hup.count⟩
    rw [hby i, hup.2.1, if_neg (Finset.notMem_empty i)]
  | panicked e =>
    rw [hr] at hend
    exact hend
  | blocked i =>
    rw [hr] at hend
    exact hend

theorem sound_bare : Sound bare := by
  refine ⟨fun i hi _ => ?_, fun i _ => .inl rfl, fun p _ => Nat.one_pos⟩
  obtain rfl := bareTable_live hi
  exact Nat.one_pos

theorem closed_bare : Closed bare := by
  refine ⟨fun ip hip => ?_, fun d hd e he _ => ?_⟩
  · have hroot : (bareTable 1).type ≠ .free := by decide
    rcases hip with rfl | ⟨-, p, rfl⟩ <;> exact hroot
  · obtain rfl := bareTable_dir hd
    have : ∀ e ∈ (bareTable 1).entries, (bareTable e.inum).type ≠ .free := by decide
    exact this e he

theorem namex_follows_dots :
    components [47, 47, 46, 47, 47, 46, 46] = [dot, dotdot] ∧
      bare.target only [47, 47, 46, 47, 47, 46, 46] false = some (1, []) ∧
      NamexEnds small bare only [47, 47, 46, 47, 47, 46, 46] false
        ((namex small only [47, 47, 46, 47, 47, 46, 46] false).run only (fun _ => none) bare) :=
  ⟨by decide, by decide,
    (namex_follows small bare sound_bare closed_bare only (by decide) _ false).2.2.2⟩

def letterEntry (i : ℕ) : Dirent := ⟨i, [UInt8.ofNat (64 + i)]⟩

def lettersTable (i : ℕ) : Inode :=
  if i = 1 then ⟨.dir, 0, 0, 1, 0, ⟨1, dot⟩ :: ⟨1, dotdot⟩ :: (List.range' 2 50).map letterEntry⟩
  else if 2 ≤ i ∧ i < 52 then ⟨.file, 0, 0, 1, 0, []⟩
  else ⟨.free, 0, 0, 0, 0, []⟩

def crowded : Fs (Fin 4) where
  inode := lettersTable
  ref := fun i => if i = 1 then 4 else if 2 ≤ i ∧ i < 51 then 1 else 0
  valid := fun i => decide (1 ≤ i ∧ i < 51)
  file := fun f => if f.1 < 49 then ⟨.inode, 1, true, false, f.1 + 2, 0⟩
    else ⟨.none, 0, false, false, 0, 0⟩
  ofile := fun p fd => if p.1 * 16 + fd.1 < 49 then some (Fin.ofNat NFILE (p.1 * 16 + fd.1))
    else none
  cwd := fun _ => 1
  outstanding := 0
  hist := []

theorem lettersTable_live {i : ℕ} (h : 1 ≤ i ∧ i < 52) : (lettersTable i).type ≠ .free := by
  unfold lettersTable
  split
  · simp
  · rw [if_pos (by omega)]
    simp

theorem lettersTable_free {i : ℕ} (h : ¬ (1 ≤ i ∧ i < 52)) : (lettersTable i).type = .free := by
  unfold lettersTable
  rw [if_neg (by omega), if_neg (by omega)]

theorem sound_crowded : Sound crowded := by
  refine ⟨fun i hi hz => ?_, fun i hi => ?_, fun p _ => Nat.succ_pos 3⟩
  · by_cases h : 1 ≤ i ∧ i < 52
    · have hlinks : (lettersTable i).nlink = 1 := by
        unfold lettersTable
        split
        · rfl
        · rw [if_pos (by omega)]
      exact absurd (hlinks.symm.trans hz) (by decide)
    · exact absurd (lettersTable_free h) hi
  · refine .inl (decide_eq_false fun h => ?_)
    exact lettersTable_live ⟨h.1, by omega⟩ hi

theorem closed_crowded : Closed crowded := by
  have hone : (1 : ℕ) ≤ 1 ∧ 1 < 52 := by decide
  refine ⟨fun ip hip => ?_, fun d hd e he _ => ?_⟩
  · rcases hip with rfl | ⟨-, p, rfl⟩ <;> exact lettersTable_live hone
  have h1 : d = 1 := by
    by_contra hne
    change (lettersTable d).type = .dir at hd
    unfold lettersTable at hd
    rw [if_neg hne] at hd
    split at hd <;> cases hd
  subst h1
  change e ∈ ⟨1, dot⟩ :: ⟨1, dotdot⟩ :: (List.range' 2 50).map letterEntry at he
  simp only [List.mem_cons, List.mem_map, List.mem_range'_1] at he
  rcases he with rfl | rfl | ⟨i, hi, rfl⟩
  · exact lettersTable_live hone
  · exact lettersTable_live hone
  · exact lettersTable_live ⟨by show 1 ≤ i; omega, by show i < 52; omega⟩

theorem namex_no_inodes :
    Sound crowded ∧ Closed crowded ∧ crowded.target 0 [115] false = some (51, []) ∧
      (namex ⟨200, 941, by decide, by decide⟩ 0 [115] false).run 0 (fun _ => none) crowded =
        .panicked .igetNoInodes :=
  ⟨sound_crowded, closed_crowded, by decide, by rfl⟩

end Xv6.Sys
