import Xv6.Sh.Run
import Xv6.Sh.Accept

namespace Xv6.Sh

open Function
open List (mem_append mem_cons mem_cons_self not_mem_nil suffix_cons suffix_refl)

variable {W : Type}

def File.map {R R' : Type} (g : R → R') : File W R → File W R'
  | .given fd => .given fd
  | .opened file mode => .opened file mode
  | .rend r => .rend (g r)
  | .wend r => .wend (g r)

namespace Table

variable {R R' : Type}

def map (g : R → R') (t : Table W R) : Table W R' := fun fd => (t fd).map (File.map g)

section
variable (g : R → R') (t : Table W R)

theorem map_update (fd : ℕ) (x : Option (File W R)) :
    map g (update t fd x) = update (t.map g) fd (x.map (File.map g)) := by
  funext i
  by_cases h : i = fd
  · subst h
    simp [map]
  · simp [map, h]

@[simp] theorem spare_map : (t.map g).spare = t.spare := by
  simp [spare, map]

@[simp] theorem argfd_map (fd : ℕ) : (t.map g).argfd fd = (t.argfd fd).map (File.map g) := by
  unfold argfd map
  split <;> rfl

theorem close_map (fd : ℕ) : (t.map g).close fd = (t.close fd).map g := by
  unfold close
  rw [argfd_map]
  cases t.argfd fd with
  | none => rfl
  | some f => exact (map_update g t fd none).symm

theorem fdalloc_map (f : File W R) :
    (t.map g).fdalloc (f.map g) = (t.fdalloc f).map fun x => (x.1, x.2.map g) := by
  unfold fdalloc
  rw [spare_map, Option.map_map]
  refine Option.map_congr fun fd _ => ?_
  exact congrArg (Prod.mk fd) (map_update g t fd (some f)).symm

theorem dup_map (fd : ℕ) : (t.map g).dup fd = (t.dup fd).map g := by
  unfold dup
  rw [argfd_map]
  cases t.argfd fd with
  | none => rfl
  | some f =>
    dsimp only [Option.map_some]
    rw [fdalloc_map]
    cases t.fdalloc f with
    | none => rfl
    | some x => rfl

theorem pipe_map (r : R) : (t.map g).pipe (g r) = (t.pipe r).map fun x => (x.1, x.2.map g) := by
  have h0 := fdalloc_map g t (.rend r)
  unfold pipe
  rw [show File.rend (g r) = (.rend r : File W R).map g from rfl, h0]
  cases t.fdalloc (.rend r) with
  | none => rfl
  | some x =>
    dsimp only [Option.map_some]
    rw [show File.wend (g r) = (.wend r : File W R).map g from rfl, fdalloc_map]
    cases x.2.fdalloc (.wend r) with
    | none => rfl
    | some y => rfl

end

variable {t t' : Table W R} {fd i : ℕ} {f f' : File W R}

theorem of_update {x : Option (File W R)} (h : update t fd x i = some f') :
    x = some f' ∨ t i = some f' := by
  by_cases hi : i = fd
  · subst hi
    exact .inl (by simpa using h)
  · exact .inr (by simpa [hi] using h)

theorem of_close (h : t.close fd i = some f') : t i = some f' := by
  unfold close at h
  cases harg : t.argfd fd with
  | none => simpa [harg] using h
  | some f =>
    rw [harg] at h
    rcases of_update h with h | h
    · cases h
    · exact h

theorem of_fdalloc (ht : t.fdalloc f = some (fd, t')) (h : t' i = some f') :
    f' = f ∨ t i = some f' := by
  obtain ⟨n, -, hn⟩ := Option.map_eq_some_iff.1 ht
  cases hn
  rcases of_update h with h | h
  · exact .inl (Option.some.inj h).symm
  · exact .inr h

theorem of_argfd (h : t.argfd fd = some f) : t fd = some f := by
  unfold argfd at h
  split at h
  · exact h
  · cases h

theorem of_dup (h : t.dup fd i = some f') : ∃ j, t j = some f' := by
  unfold dup at h
  cases harg : t.argfd fd with
  | none => exact ⟨i, by simpa [harg] using h⟩
  | some f =>
    cases halloc : t.fdalloc f with
    | none => exact ⟨i, by simpa [harg, halloc] using h⟩
    | some x =>
      simp only [harg, halloc] at h
      rcases of_fdalloc halloc h with rfl | h
      · exact ⟨fd, of_argfd harg⟩
      · exact ⟨i, h⟩

theorem of_pipe {r : R} {p : ℕ × ℕ} (ht : t.pipe r = some (p, t')) (h : t' i = some f') :
    f' = .rend r ∨ f' = .wend r ∨ t i = some f' := by
  unfold pipe at ht
  cases h0 : t.fdalloc (.rend r) with
  | none => simp [h0] at ht
  | some x =>
    cases h1 : x.2.fdalloc (.wend r) with
    | none => simp [h0, h1] at ht
    | some y =>
      simp only [h0, h1, Option.some.injEq, Prod.mk.injEq] at ht
      obtain ⟨-, rfl⟩ := ht
      rcases of_fdalloc h1 h with rfl | h
      · exact .inr (.inl rfl)
      · rcases of_fdalloc h0 h with rfl | h
        · exact .inl rfl
        · exact .inr (.inr h)

def ofList (l : List (Option (File W R))) : Table W R := fun fd => l[fd]?.join

theorem update_ofList (l : List (Option (File W R))) (h : fd < l.length)
    (x : Option (File W R)) : update (ofList l) fd x = ofList (l.set fd x) := by
  funext i
  by_cases hi : i = fd
  · subst hi
    simp [ofList, h]
  · simp [ofList, hi, Ne.symm hi]

theorem ofList_concat_none (l : List (Option (File W R))) : ofList (l ++ [none]) = ofList l := by
  funext i
  unfold ofList
  rcases lt_trichotomy i l.length with h | rfl | h
  · rw [List.getElem?_append_left h]
  · simp
  · rw [List.getElem?_eq_none h.le, List.getElem?_eq_none (by simpa using Nat.succ_le_of_lt h)]

variable {l : List (Option (File W R))}

theorem fdalloc_ofList (hs : (ofList l).spare = some fd) (hl : fd < l.length) (f : File W R) :
    (ofList l).fdalloc f = some (fd, ofList (l.set fd (some f))) := by
  rw [fdalloc, hs, Option.map_some, update_ofList l hl]

section
variable (hl : l[fd]? = some (some f)) (hfd : fd < NOFILE)
include hl hfd

theorem argfd_ofList : (ofList l).argfd fd = some f := by
  rw [argfd, if_pos hfd, ofList, hl]
  rfl

theorem close_ofList : (ofList l).close fd = ofList (l.set fd none) := by
  rw [close, argfd_ofList hl hfd]
  exact update_ofList l (List.getElem?_eq_some_iff.1 hl).1 none

theorem dup_ofList {n : ℕ} (hs : (ofList l).spare = some n) (hn : n < l.length) :
    (ofList l).dup fd = ofList (l.set n (some f)) := by
  rw [dup, argfd_ofList hl hfd]
  dsimp only
  rw [fdalloc_ofList hs hn]

end

theorem forall_ofList {P : File W R → Prop} :
    (∀ fd f, ofList l fd = some f → P f) ↔ ∀ f, some f ∈ l → P f := by
  simp only [ofList, Option.join_eq_some_iff, List.mem_iff_getElem?]
  constructor
  · rintro h f ⟨fd, hf⟩
    exact h fd f hf
  · intro h fd f hf
    exact h f ⟨fd, hf⟩

end Table

structure Std (W : Type) where
  fd0 : File W Place
  fd1 : File W Place
  fd2 : File W Place
  deriving DecidableEq, Repr

def Std.rebind (e : Std W) (fd : ℕ) (f : File W Place) : Std W :=
  if fd = 0 then { e with fd0 := f } else { e with fd1 := f }

def Std.table (e : Std W) : Table W Place := .ofList [some e.fd0, some e.fd1, some e.fd2]

inductive At (cmd : Cmd W) : Place → Cmd W → Std W → Prop
  | root : At cmd [] cmd ⟨.given 0, .given 1, .given 2⟩
  | redir {π : Place} {c : Cmd W} {file : W} {mode : UInt32} {fd : ℕ} {e : Std W}
      (h : At cmd π (.redir c file mode fd) e) :
      At cmd (false :: π) c (e.rebind fd (.opened file mode))
  | pipeLeft {π : Place} {l r : Cmd W} {e : Std W} (h : At cmd π (.pipe l r) e) :
      At cmd (false :: π) l (e.rebind 1 (.wend π))
  | pipeRight {π : Place} {l r : Cmd W} {e : Std W} (h : At cmd π (.pipe l r) e) :
      At cmd (true :: π) r (e.rebind 0 (.rend π))
  | listLeft {π : Place} {l r : Cmd W} {e : Std W} (h : At cmd π (.list l r) e) :
      At cmd (false :: π) l e
  | listRight {π : Place} {l r : Cmd W} {e : Std W} (h : At cmd π (.list l r) e) :
      At cmd (true :: π) r e
  | back {π : Place} {c : Cmd W} {e : Std W} (h : At cmd π (.back c) e) :
      At cmd (false :: π) c e

def Cmd.Plain : Cmd W → Prop
  | .exec _ => True
  | .redir c _ _ fd => fd < 2 ∧ c.Plain
  | .pipe l r => l.Plain ∧ r.Plain
  | .list l r => l.Plain ∧ r.Plain
  | .back c => c.Plain

variable {c : Cmd W} {π : Place} {e : Std W}

theorem At.fd2 {cmd : Cmd W} (h : At cmd π c e) : e.fd2 = .given 2 := by
  induction h with
  | root => rfl
  | redir h ih =>
    unfold Std.rebind
    split <;> exact ih
  | pipeLeft h ih => exact ih
  | pipeRight h ih => exact ih
  | listLeft h ih => exact ih
  | listRight h ih => exact ih
  | back h ih => exact ih

def File.Above (π : Place) : File W Place → Prop
  | .rend ρ => ∃ b, (b :: ρ) <:+ π
  | .wend ρ => (false :: ρ) <:+ π
  | _ => True

variable {f : File W Place}

theorem File.Above.below (h : f.Above π) (b : Bool) : f.Above (b :: π) := by
  cases f with
  | given fd => trivial
  | opened file mode => trivial
  | rend ρ => exact .imp (fun _ h => h.trans (suffix_cons b π)) h
  | wend ρ => exact .trans h (suffix_cons b π)

structure Std.Above (π : Place) (e : Std W) : Prop where
  fd0 : e.fd0.Above π
  fd1 : e.fd1.Above π
  fd2 : e.fd2.Above π

theorem Std.Above.below (h : e.Above π) (b : Bool) : e.Above (b :: π) :=
  ⟨h.fd0.below b, h.fd1.below b, h.fd2.below b⟩

theorem Std.Above.rebind (h : e.Above π) (hf : f.Above π) (fd : ℕ) : (e.rebind fd f).Above π := by
  unfold Std.rebind
  split
  · exact ⟨hf, h.fd1, h.fd2⟩
  · exact ⟨h.fd0, hf, h.fd2⟩

theorem At.above {cmd : Cmd W} (h : At cmd π c e) : e.Above π := by
  induction h with
  | root => exact ⟨trivial, trivial, trivial⟩
  | redir h ih =>
    refine (ih.below _).rebind ?_ _
    trivial
  | pipeLeft h ih =>
    refine (ih.below _).rebind ?_ 1
    exact suffix_refl _
  | pipeRight h ih =>
    refine (ih.below _).rebind ?_ 0
    exact ⟨true, suffix_refl _⟩
  | listLeft h ih => exact ih.below _
  | listRight h ih => exact ih.below _
  | back h ih => exact ih.below _

def Code.events : Code W → List (Event W)
  | .close _ k => k.events
  | .dup _ k => k.events
  | .open _ _ k => k.events
  | .pipe π k => .pipe π :: k.events
  | .fork _ child k => child.events ++ k.events
  | .call π k => .call π :: k.events
  | .wait _ k => k.events
  | .exec π argv k => .exec π argv :: k.events
  | .exit => []

def Code.Busy : Code W → Prop
  | .wait _ _ => False
  | .exec _ _ _ => False
  | .exit => False
  | _ => True

def Event.node : Event W → Place
  | .pipe π => π
  | .call π => π
  | .exec π _ => π

def Event.Of (π : Place) (ev : Event W) : Prop :=
  (ev = .pipe π ∨ ∃ argv, ev = .exec π argv) ∨ ∃ b, (b :: π) <:+ ev.node

variable {ev : Event W}

theorem Event.Of.side (b : Bool) (h : ev = .call (b :: π) ∨ ev.Of (b :: π)) : ev.Of π := by
  rcases h with rfl | (rfl | ⟨argv, rfl⟩) | ⟨b', h⟩
  · exact .inr ⟨b, suffix_refl _⟩
  · exact .inr ⟨b, suffix_refl _⟩
  · exact .inr ⟨b, suffix_refl _⟩
  · exact .inr ⟨b, (suffix_cons b' _).trans h⟩

theorem runcmd_events (h : ev ∈ (runcmd π c).events) : ev.Of π := by
  induction c generalizing π with
  | exec argv =>
    unfold runcmd at h
    split at h
    · cases h
    · simp only [Code.events, List.mem_singleton] at h
      exact .inl (.inr ⟨argv, h⟩)
  | redir c file mode fd ih => exact .side false ((List.mem_cons.1 h).imp_right ih)
  | pipe l r ihl ihr =>
    simp only [runcmd, Code.events, mem_cons, mem_append, List.append_nil] at h
    rcases h with h | h | h
    · exact .inl (.inl h)
    · exact .side false (h.imp_right ihl)
    · exact .side true (h.imp_right ihr)
  | list l r ihl ihr =>
    simp only [runcmd, Code.events, mem_cons, mem_append] at h
    rcases h with h | h
    · exact .side false (h.imp_right ihl)
    · exact .side true (h.imp_right ihr)
  | back c ih =>
    simp only [runcmd, Code.events, mem_cons, List.append_nil] at h
    exact .side false (h.imp_right ih)

theorem not_suffix_self (b : Bool) (π : Place) : ¬ (b :: π) <:+ π := by
  intro h
  have := h.length_le
  simp at this

theorem not_both_sides {ρ : Place} (hl : (false :: π) <:+ ρ) : ¬ (true :: π) <:+ ρ := by
  intro hr
  have := (List.suffix_of_suffix_length_le hl hr (by simp)).eq_of_length (by simp)
  simp at this

theorem runcmd_below (h : ev ∈ (runcmd π c).events) : π <:+ ev.node := by
  rcases runcmd_events h with (rfl | ⟨argv, rfl⟩) | ⟨b, h⟩
  · exact suffix_refl _
  · exact suffix_refl _
  · exact (suffix_cons b _).trans h

theorem call_notMem (c : Cmd W) (π : Place) : .call π ∉ (runcmd π c).events := by
  intro h
  rcases runcmd_events h with (h | ⟨argv, h⟩) | ⟨b, h⟩
  · cases h
  · cases h
  · exact not_suffix_self b π h

theorem call_below (h : ev ∈ (Code.call π (runcmd π c)).events) : π <:+ ev.node := by
  rcases List.mem_cons.1 h with rfl | h
  · exact suffix_refl _
  · exact runcmd_below h

theorem call_nodup (h : (runcmd π c).events.Nodup) : (Code.call π (runcmd π c)).events.Nodup :=
  List.nodup_cons.2 ⟨call_notMem c π, h⟩

theorem sides_nodup {l r : Cmd W} (hl : (runcmd (false :: π) l).events.Nodup)
    (hr : (runcmd (true :: π) r).events.Nodup) :
    ((Code.call (false :: π) (runcmd (false :: π) l)).events ++
      (Code.call (true :: π) (runcmd (true :: π) r)).events).Nodup := by
  refine List.nodup_append.2 ⟨call_nodup hl, call_nodup hr, ?_⟩
  rintro ev hevl _ hevr rfl
  exact not_both_sides (call_below hevl) (call_below hevr)

theorem runcmd_nodup (c : Cmd W) (π : Place) : (runcmd π c).events.Nodup := by
  induction c generalizing π with
  | exec argv =>
    unfold runcmd
    split <;> simp [Code.events]
  | redir c file mode fd ih => exact call_nodup (ih _)
  | pipe l r ihl ihr =>
    have hpipe : .pipe π ∉ (Code.call (false :: π) (runcmd (false :: π) l)).events ++
        (Code.call (true :: π) (runcmd (true :: π) r)).events := by
      intro h
      rcases List.mem_append.1 h with h | h
      · exact not_suffix_self _ π (call_below h)
      · exact not_suffix_self _ π (call_below h)
    have hnodup := List.nodup_cons.2 ⟨hpipe, sides_nodup (ihl (false :: π)) (ihr (true :: π))⟩
    simpa [runcmd, Code.events] using hnodup
  | list l r ihl ihr => exact sides_nodup (ihl _) (ihr _)
  | back c ih =>
    have hnodup := call_nodup (ih (false :: π))
    simpa [runcmd, Code.events] using hnodup

def File.Held (ν : Place) (code : Code W) : File W Place → Prop
  | .wend π => (false :: π) <:+ ν ∨ ν = π ∧ code.Busy ∨ ν = true :: π ∧ .call ν ∈ code.events
  | _ => True

variable {ν : Place}

theorem File.Above.held (h : f.Above ν) (code : Code W) : f.Held ν code := by
  cases f with
  | given fd => trivial
  | opened file mode => trivial
  | rend π => trivial
  | wend π => exact .inl h

def Code.Next (cmd : Cmd W) (ν : Place) (T : Table W Place) : Code W → Prop
  | .fork π child k => (∃ b, π = b :: ν) ∧ .call π ∈ child.events ∧
      .call ν ∉ (Code.fork π child k).events
  | .call π k => π = ν ∨ (∃ b, π = b :: ν) ∧ .call ν ∉ (Code.call π k).events
  | .wait π _ => ∀ fd, T fd ≠ some (.rend π) ∧ T fd ≠ some (.wend π)
  | .exec π argv k => π = ν ∧ .call ν ∉ k.events ∧ ∃ e, At cmd π (.exec argv) e ∧ T = e.table
  | _ => True

structure Here (cmd : Cmd W) (ν : Place) (T : Table W Place) (code : Code W) : Prop where
  held : ∀ fd f, T fd = some f → f.Held ν code
  next : code.Next cmd ν T

def Code.Good (cmd : Cmd W) : Code W → Place → Table W Place → ℕ × ℕ → Prop
  | .close fd k, ν, T, p => Here cmd ν T (.close fd k) ∧ k.Good cmd ν (T.close (fd.val p)) p
  | .dup fd k, ν, T, p => Here cmd ν T (.dup fd k) ∧ k.Good cmd ν (T.dup (fd.val p)) p
  | .open file mode k, ν, T, p => Here cmd ν T (.open file mode k) ∧
      ∃ fd T', T.fdalloc (.opened file mode) = some (fd, T') ∧ k.Good cmd ν T' p
  | .pipe π k, ν, T, _ => Here cmd ν T (.pipe π k) ∧
      ∃ p' T', T.pipe π = some (p', T') ∧ k.Good cmd ν T' p'
  | .fork π child k, ν, T, p => Here cmd ν T (.fork π child k) ∧
      child.Good cmd π T p ∧ k.Good cmd ν T p
  | .call π k, ν, T, p => Here cmd ν T (.call π k) ∧ k.Good cmd π T p
  | .wait π k, ν, T, p => Here cmd ν T (.wait π k) ∧ k.Good cmd ν T p
  | .exec π argv k, ν, T, p => Here cmd ν T (.exec π argv k) ∧ k.Good cmd ν T p
  | .exit, ν, T, _ => Here cmd ν T .exit

theorem Std.table_eq (e : Std W) :
    e.table = .ofList [some e.fd0, some e.fd1, some e.fd2, none, none] := by
  rw [Std.table, ← Table.ofList_concat_none, ← Table.ofList_concat_none]
  rfl

theorem Std.Above.held (h : e.Above ν) (code : Code W) :
    ∀ fd f, e.table fd = some f → f.Held ν code := by
  refine Table.forall_ofList.2 ?_
  simp only [mem_cons, Option.some.injEq, not_mem_nil, or_false, forall_eq_or_imp, forall_eq]
  exact ⟨h.fd0.held _, h.fd1.held _, h.fd2.held _⟩

theorem Std.Above.no_end (h : e.Above ν) (fd : ℕ) :
    e.table fd ≠ some (.rend ν) ∧ e.table fd ≠ some (.wend ν) := by
  have hall : ∀ fd f, e.table fd = some f → f.Above ν := by
    refine Table.forall_ofList.2 ?_
    simp only [mem_cons, Option.some.injEq, not_mem_nil, or_false, forall_eq_or_imp, forall_eq]
    exact ⟨h.fd0, h.fd1, h.fd2⟩
  constructor
  · intro hfd
    obtain ⟨b, hb⟩ := hall fd _ hfd
    exact not_suffix_self b ν hb
  · intro hfd
    exact not_suffix_self false ν (hall fd _ hfd)

variable {cmd : Cmd W} {π : Place} {e : Std W} {p : ℕ × ℕ}

def GoodAt (cmd c : Cmd W) : Prop :=
  ∀ π e p, At cmd π c e → (runcmd π c).Good cmd π e.table p

variable {c : Cmd W}

theorem good_call (hc : GoodAt cmd c) (h : At cmd π c e) :
    (Code.call π (runcmd π c)).Good cmd π e.table p :=
  ⟨⟨h.above.held _, .inl rfl⟩, hc π e p h⟩

theorem good_call_down {b : Bool} (hc : GoodAt cmd c) (h : At cmd (b :: π) c e) (he : e.Above π) :
    (Code.call (b :: π) (runcmd (b :: π) c)).Good cmd π e.table p := by
  refine ⟨⟨he.held _, .inr ⟨⟨b, rfl⟩, ?_⟩⟩, hc _ e p h⟩
  intro hmem
  exact not_suffix_self b π (call_below hmem)

theorem good_exec (argv : List W) (h : At cmd π (.exec argv) e) :
    (runcmd π (.exec argv)).Good cmd π e.table p := by
  unfold runcmd
  split
  · exact ⟨h.above.held _, trivial⟩
  · exact ⟨⟨h.above.held _, rfl, by simp [Code.events], e, h, rfl⟩, h.above.held _, trivial⟩

variable {fd : ℕ}

theorem Std.reopen (e : Std W) (hfd : fd < 2) (f : File W Place) :
    (e.table.close fd).fdalloc f = some (fd, (e.rebind fd f).table) := by
  unfold Std.table
  obtain rfl | rfl : fd = 0 ∨ fd = 1 := by omega
  · rw [Table.close_ofList rfl (by decide)]
    exact Table.fdalloc_ofList rfl (by simp) f
  · rw [Table.close_ofList rfl (by decide)]
    exact Table.fdalloc_ofList rfl (by simp) f

theorem good_redir {file : W} {mode : UInt32} (hfd : fd < 2) (hc : GoodAt cmd c)
    (h : At cmd π (.redir c file mode fd) e) :
    (runcmd π (.redir c file mode fd)).Good cmd π e.table p := by
  refine ⟨⟨h.above.held _, trivial⟩, ⟨?_, trivial⟩, fd, _, e.reopen hfd _, ?_⟩
  · intro i f hf
    exact h.above.held _ i f (Table.of_close hf)
  · exact good_call_down hc h.redir (h.above.rebind (f := .opened file mode) trivial fd)

theorem good_list {l r : Cmd W} (hl : GoodAt cmd l) (hr : GoodAt cmd r)
    (h : At cmd π (.list l r) e) : (runcmd π (.list l r)).Good cmd π e.table p := by
  have hnot : .call π ∉ (runcmd π (.list l r)).events := call_notMem _ π
  refine ⟨⟨h.above.held _, ⟨false, rfl⟩, mem_cons_self, hnot⟩, ?_, ?_, ?_⟩
  · exact good_call hl h.listLeft
  · exact ⟨h.above.held _, h.above.no_end⟩
  · exact good_call_down hr h.listRight h.above

theorem good_back (hc : GoodAt cmd c) (h : At cmd π (.back c) e) :
    (runcmd π (.back c)).Good cmd π e.table p := by
  have hnot : .call π ∉ (runcmd π (.back c)).events := call_notMem _ π
  refine ⟨⟨h.above.held _, ⟨false, rfl⟩, mem_cons_self, hnot⟩, ?_, ?_⟩
  · exact good_call hc h.back
  · exact ⟨h.above.held _, trivial⟩

def Std.piped (e : Std W) (π : Place) : Table W Place :=
  .ofList [some e.fd0, some e.fd1, some e.fd2, some (.rend π), some (.wend π)]

section
variable (e : Std W) (π : Place)

theorem Std.pipe_eq : e.table.pipe π = some ((3, 4), e.piped π) := by
  unfold Table.pipe
  have h0 : (Table.ofList [some e.fd0, some e.fd1, some e.fd2, none, none]).spare = some 3 := rfl
  have h1 : (Table.ofList [some e.fd0, some e.fd1, some e.fd2, some (.rend π), none]).spare =
      some 4 := rfl
  rw [Std.table_eq, Table.fdalloc_ofList h0 (by simp)]
  dsimp only [List.set]
  rw [Table.fdalloc_ofList h1 (by simp)]
  rfl

theorem Std.left_eq :
    ((((e.piped π).close 1).dup 4).close 3).close 4 = (e.rebind 1 (.wend π)).table := by
  unfold Std.piped
  rw [Table.close_ofList rfl (by decide), Table.dup_ofList (n := 1) rfl (by decide) rfl (by simp),
    Table.close_ofList rfl (by decide), Table.close_ofList rfl (by decide), Std.table_eq]
  rfl

theorem Std.right_eq :
    ((((e.piped π).close 0).dup 3).close 3).close 4 = (e.rebind 0 (.rend π)).table := by
  unfold Std.piped
  rw [Table.close_ofList rfl (by decide), Table.dup_ofList (n := 0) rfl (by decide) rfl (by simp),
    Table.close_ofList rfl (by decide), Table.close_ofList rfl (by decide), Std.table_eq]
  rfl

theorem Std.parent_eq : ((e.piped π).close 3).close 4 = e.table := by
  unfold Std.piped
  rw [Table.close_ofList rfl (by decide), Table.close_ofList rfl (by decide), Std.table_eq]
  rfl

end

theorem Std.forall_piped {Q : File W Place → Prop} (h0 : Q e.fd0) (h1 : Q e.fd1) (h2 : Q e.fd2)
    (hr : Q (.rend π)) (hw : Q (.wend π)) : ∀ fd f, e.piped π fd = some f → Q f := by
  refine Table.forall_ofList.2 ?_
  simp only [mem_cons, Option.some.injEq, not_mem_nil, or_false, forall_eq_or_imp, forall_eq]
  exact ⟨h0, h1, h2, hr, hw⟩

theorem good_side {b : Bool} {a : Arg} {e' : Std W} {T : Table W Place}
    (hT : ∀ i f, T i = some f → ∀ code, .call (b :: π) ∈ code.events → f.Held (b :: π) code)
    (heq : (((T.close fd).dup (a.val (3, 4))).close 3).close 4 = e'.table) (hc : GoodAt cmd c)
    (h : At cmd (b :: π) c e') : (Code.close (.fd fd) (.dup a (.close .p0 (.close .p1
      (.call (b :: π) (runcmd (b :: π) c)))))).Good cmd (b :: π) T (3, 4) := by
  have hmem : .call (b :: π) ∈ (Code.call (b :: π) (runcmd (b :: π) c)).events :=
    mem_cons_self
  have h1 : ∀ i f, T.close fd i = some f → ∀ code, .call (b :: π) ∈ code.events →
      f.Held (b :: π) code := by
    intro i f hf
    exact hT i f (Table.of_close hf)
  have h2 : ∀ i f, (T.close fd).dup (a.val (3, 4)) i = some f →
      ∀ code, .call (b :: π) ∈ code.events → f.Held (b :: π) code := by
    intro i f hf
    obtain ⟨j, hj⟩ := Table.of_dup hf
    exact h1 j f hj
  refine ⟨⟨fun i f hf => hT i f hf _ hmem, trivial⟩, ⟨fun i f hf => h1 i f hf _ hmem, trivial⟩,
    ⟨fun i f hf => h2 i f hf _ hmem, trivial⟩,
    ⟨fun i f hf => h2 i f (Table.of_close hf) _ hmem, trivial⟩, ?_⟩
  have hgood := good_call hc h (p := (3, 4))
  rw [← heq] at hgood
  exact hgood

theorem good_pipe {l r : Cmd W} (hl : GoodAt cmd l) (hr : GoodAt cmd r)
    (h : At cmd π (.pipe l r) e) : (runcmd π (.pipe l r)).Good cmd π e.table p := by
  have hbelow := fun b => h.above.below b
  have hT : ∀ i f, e.piped π i = some f → ∀ code : Code W, code.Busy → f.Held π code :=
    Std.forall_piped (fun code _ => h.above.fd0.held code) (fun code _ => h.above.fd1.held code)
      (fun code _ => h.above.fd2.held code) (fun _ _ => trivial)
      (fun code hbusy => .inr (.inl ⟨rfl, hbusy⟩))
  have hnot := call_notMem (.pipe l r) π
  simp only [runcmd, Code.events, mem_cons, mem_append, not_or] at hnot
  refine ⟨⟨h.above.held _, trivial⟩, (3, 4), _, e.pipe_eq π, ?_⟩
  refine ⟨⟨fun i f hf => hT i f hf _ trivial, ⟨false, rfl⟩, mem_cons_self, ?_⟩, ?_,
    ⟨fun i f hf => hT i f hf _ trivial, ⟨true, rfl⟩, mem_cons_self, ?_⟩, ?_,
    ⟨fun i f hf => hT i f hf _ trivial, trivial⟩,
    ⟨fun i f hf => hT i f (Table.of_close hf) _ trivial, trivial⟩, ?_⟩
  · simpa [Code.events] using hnot.2
  · refine good_side ?_ (e.left_eq π) hl h.pipeLeft
    exact Std.forall_piped (fun code _ => ((hbelow _).fd0).held code)
      (fun code _ => ((hbelow _).fd1).held code) (fun code _ => ((hbelow _).fd2).held code)
      (fun _ _ => trivial) (fun _ _ => .inl (suffix_refl _))
  · simpa [Code.events] using hnot.2.2
  · refine good_side ?_ (e.right_eq π) hr h.pipeRight
    exact Std.forall_piped (fun code _ => ((hbelow _).fd0).held code)
      (fun code _ => ((hbelow _).fd1).held code) (fun code _ => ((hbelow _).fd2).held code)
      (fun _ _ => trivial) (fun _ hmem => .inr (.inr ⟨rfl, hmem⟩))
  have hgood : (Code.wait π (.wait π .exit)).Good cmd π e.table (3, 4) :=
    ⟨⟨h.above.held _, h.above.no_end⟩, ⟨h.above.held _, h.above.no_end⟩, h.above.held _, trivial⟩
  rw [← e.parent_eq π] at hgood
  exact hgood

theorem runcmd_good (c : Cmd W) (hc : c.Plain) : GoodAt cmd c := by
  induction c with
  | exec argv => exact fun π e p h => good_exec argv h
  | redir c file mode fd ih => exact fun π e p h => good_redir hc.1 (ih hc.2) h
  | pipe l r ihl ihr => exact fun π e p h => good_pipe (ihl hc.1) (ihr hc.2) h
  | list l r ihl ihr => exact fun π e p h => good_list (ihl hc.1) (ihr hc.2) h
  | back c ih => exact fun π e p h => good_back (ih hc) h

end Xv6.Sh
