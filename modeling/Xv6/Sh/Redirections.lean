import Xv6.Sh.Descriptors

/-!
The order of redirections.

The parser wraps each redirection around those before it, and `runcmd` opens
files from the outside in. So the files of a command are opened from right to
left, and of two redirections of one descriptor the left one is in force.
-/

namespace Xv6.Sh

variable {W : Type} {cmd c c' : Cmd W} {π : Place} {e e' : Std W}

theorem redirs_concat (c : Cmd W) (rs : List (Redir W)) (r : Redir W) :
    c.redirs (rs ++ [r]) = .redir (c.redirs rs) r.file r.mode r.fd := by
  rw [Cmd.redirs, List.foldl_append]
  rfl

def Code.redirect (k : Place → Code W) (π : Place) : List (Redir W) → Code W
  | [] => k π
  | r :: rs =>
    .close (.fd r.fd) (.open r.file r.mode (.call (false :: π) (redirect k (false :: π) rs)))

theorem runcmd_redirs (c : Cmd W) (rs : List (Redir W)) (π : Place) :
    runcmd π (c.redirs rs) = .redirect (fun π => runcmd π c) π rs.reverse := by
  induction rs using List.reverseRecOn generalizing π with
  | nil => rfl
  | append_singleton rs r ih =>
    rw [redirs_concat, List.reverse_concat, runcmd, Code.redirect, ih]

def Std.rebinds (e : Std W) (rs : List (Redir W)) : Std W :=
  rs.foldl (fun e r => e.rebind r.fd (.opened r.file r.mode)) e

variable {rs : List (Redir W)}

theorem At.redirs (h : At cmd π (c.redirs rs) e) :
    At cmd (List.replicate rs.length false ++ π) c (e.rebinds rs.reverse) := by
  induction rs using List.reverseRecOn generalizing π e with
  | nil => exact h
  | append_singleton rs r ih =>
    rw [redirs_concat] at h
    have hat := ih h.redir
    rwa [List.length_append, List.reverse_concat, List.length_singleton, List.replicate_succ',
      List.append_assoc]

theorem At.unique (h : At cmd π c e) (h' : At cmd π c' e') : c = c' ∧ e = e' := by
  induction h generalizing c' e' with
  | root =>
    cases h'
    exact ⟨rfl, rfl⟩
  | redir _ ih | pipeLeft _ ih | pipeRight _ ih | listLeft _ ih | listRight _ ih | back _ ih =>
    cases h' <;> (obtain ⟨heq, rfl⟩ := ih ‹_›; cases heq <;> exact ⟨rfl, rfl⟩)

theorem At.plain (h : At cmd π c e) (hcmd : cmd.Plain) : c.Plain := by
  induction h with
  | root => exact hcmd
  | redir _ ih | pipeRight _ ih | listRight _ ih => exact ih.2
  | pipeLeft _ ih | listLeft _ ih => exact ih.1
  | back _ ih => exact ih

theorem Cmd.Plain.of_redirs (h : (c.redirs rs).Plain) : ∀ r ∈ rs, r.fd < 2 := by
  induction rs using List.reverseRecOn with
  | nil => simp
  | append_singleton rs r ih =>
    rw [redirs_concat] at h
    intro r' hr'
    rcases List.mem_append.1 hr' with hr' | hr'
    · exact ih h.2 r' hr'
    · rw [List.mem_singleton.1 hr']
      exact h.1

def leftmost (rs : List (Redir W)) (fd : ℕ) : Option (Redir W) := rs.find? fun r => r.fd = fd

def rightmost (rs : List (Redir W)) (fd : ℕ) : Option (Redir W) := leftmost rs.reverse fd

theorem leftmost_fd {r : Redir W} {fd : ℕ} (h : leftmost rs fd = some r) : r.fd = fd := by
  have hfd := List.find?_some h
  exact of_decide_eq_true hfd

theorem rightmost_concat (rs : List (Redir W)) (r : Redir W) (fd : ℕ) :
    rightmost (rs ++ [r]) fd = if r.fd = fd then some r else rightmost rs fd := by
  rw [rightmost, leftmost, List.reverse_concat, List.find?_cons]
  by_cases h : r.fd = fd
  · simp only [h, decide_true, if_true]
  · simp only [h, decide_false, if_false]
    rfl

theorem leftmost_none_iff {fd : ℕ} : leftmost rs fd = none ↔ rightmost rs fd = none := by
  rw [rightmost, leftmost, leftmost, List.find?_eq_none, List.find?_eq_none]
  simp only [List.mem_reverse]

theorem Std.table_rebind {i fd : ℕ} (hi : i < 2) (f : File W Place) :
    (e.rebind i f).table fd = if i = fd then some f else e.table fd := by
  obtain rfl | rfl : i = 0 ∨ i = 1 := by omega
  · rcases fd with _ | fd
    · rfl
    · rw [if_neg (Nat.succ_ne_zero fd).symm]
      rfl
  · rcases fd with _ | _ | fd
    · rfl
    · rfl
    · rw [if_neg (by omega)]
      rfl

theorem Std.table_injective (h : e.table = e'.table) : e = e' := by
  have h0 := Option.some.inj (congrFun h 0)
  have h1 := Option.some.inj (congrFun h 1)
  have h2 := Option.some.inj (congrFun h 2)
  cases e
  cases e'
  exact congr (congrArg₂ Std.mk h0 h1) h2

theorem Std.table_rebinds (hlt : ∀ r ∈ rs, r.fd < 2) (fd : ℕ) :
    (e.rebinds rs).table fd =
      match rightmost rs fd with
      | some r => some (.opened r.file r.mode)
      | none => e.table fd := by
  induction rs using List.reverseRecOn with
  | nil => rfl
  | append_singleton rs r ih =>
    obtain ⟨hrs, hr⟩ := List.forall_mem_append.1 hlt
    have hrebinds : e.rebinds (rs ++ [r]) = (e.rebinds rs).rebind r.fd (.opened r.file r.mode) := by
      rw [rebinds, List.foldl_append]
      rfl
    rw [hrebinds, table_rebind (hr r (List.mem_singleton_self r)), rightmost_concat]
    by_cases h : r.fd = fd
    · rw [if_pos h, if_pos h]
    · rw [if_neg h, if_neg h]
      exact ih hrs

section
variable (hlt : ∀ r ∈ rs, r.fd < 2)
include hlt

theorem Std.table_reverse {fd : ℕ} {r : Redir W} (hr : rightmost rs fd = some r) :
    (e.rebinds rs.reverse).table fd = some (.opened r.file r.mode) ↔ leftmost rs fd = some r := by
  rw [table_rebinds (fun r hr => hlt r (List.mem_reverse.1 hr)), rightmost, List.reverse_reverse]
  rcases hl : leftmost rs fd with _ | r'
  · exact absurd (leftmost_none_iff.1 hl) (hr ▸ Option.some_ne_none r)
  · constructor
    · intro h
      have hfile := Option.some.inj h
      have hfd := (leftmost_fd hl).trans (leftmost_fd hr).symm
      cases r
      cases r'
      cases hfile
      exact congrArg (fun fd => some (Redir.mk _ _ fd)) hfd
    · intro h
      rw [Option.some.inj h]

theorem Std.rebinds_reverse : e.rebinds rs.reverse = e.rebinds rs ↔
    ∀ fd, leftmost rs fd = rightmost rs fd := by
  constructor
  · intro h fd
    rcases hr : rightmost rs fd with _ | r
    · exact leftmost_none_iff.2 hr
    · rw [← table_reverse (e := e) hlt hr, h, table_rebinds hlt, hr]
  · intro h
    refine table_injective (funext fun fd => ?_)
    rw [table_rebinds hlt, table_rebinds (fun r hr => hlt r (List.mem_reverse.1 hr)), ← h fd,
      rightmost, List.reverse_reverse]

end

theorem Code.redirect_injective {k : Place → Code W} {rs' : List (Redir W)}
    (hlen : rs.length = rs'.length) (h : Code.redirect k π rs = Code.redirect k π rs') :
    rs = rs' := by
  induction rs generalizing π rs' with
  | nil => exact (List.length_eq_zero_iff.1 hlen.symm).symm
  | cons r rs ih =>
    rcases rs' with _ | ⟨r', rs'⟩
    · cases hlen
    · injection h with hfd hopen
      injection hopen with hfile hmode hcall
      injection hcall with _ hrest
      have hr : r = r' := by
        cases r
        cases r'
        cases hfd
        cases hfile
        cases hmode
        rfl
      rw [hr, ih (Nat.succ.inj hlen) hrest]

theorem redirections_in_order {mem : List UInt8} {a : Cmd Word × List UInt8}
    (ha : parsecmd mem = .ok a) {π : Place} {c : Cmd (List UInt8)}
    {rs : List (Redir (List UInt8))} {e : Std (List UInt8)}
    (hat : At (tree mem a) π (c.redirs rs) e) :
    (runcmd π (c.redirs rs) = .redirect (fun π => runcmd π c) π rs ↔ rs = rs.reverse) ∧
    ∃ e', At (tree mem a) (List.replicate rs.length false ++ π) c e' ∧
      (∀ fd r, rightmost rs fd = some r →
        (e'.table fd = some (.opened r.file r.mode) ↔ leftmost rs fd = some r)) ∧
      (e' = e.rebinds rs ↔ ∀ fd, leftmost rs fd = rightmost rs fd) ∧
      ∀ tr S, Lib.exec World.step (start (tree mem a)) tr = some S →
        ∀ pr ∈ S.procs, ∀ argv k, pr.code = .exec (List.replicate rs.length false ++ π) argv k →
          pr.fds.map PipeId.node = e'.table := by
  have hplain : (tree mem a).Plain := (Cmd.plain_map _ _).2 (parsecmd_plain ha)
  have hlt := (hat.plain hplain).of_redirs
  have hc := hat.redirs
  refine ⟨⟨fun h => ?_, fun h => ?_⟩, _, hc, fun fd r hr => Std.table_reverse hlt hr,
    Std.rebinds_reverse hlt, fun tr S hS pr hpr argv k hcode => ?_⟩
  · rw [runcmd_redirs] at h
    exact (Code.redirect_injective List.length_reverse h).symm
  · rw [runcmd_redirs, ← h]
  have hwired : World.Wired (tree mem a) S :=
    Lib.exec_invariant _ (World.start_wired hplain) (fun t q u ht hu => ht.step hu) hS
  obtain ⟨e', he', -, htable⟩ := hwired.plumbed.leaf pr hpr _ argv k hcode
  rw [htable, (hc.unique he').2]

theorem redirections_in_order_twice : ∃ a, parsecmd [97, 62, 120, 60, 121, 62, 120] = .ok a ∧ ∃ S,
    Lib.exec World.step (start (tree [97, 62, 120, 60, 121, 62, 120] a)) (List.replicate 9 0) =
      some S ∧
    ∃ pr ∈ S.procs, pr.code = .exec [false, false, false] [[97]] .exit ∧
      pr.fds.map PipeId.node = Std.table ⟨.opened [121] 0, .opened [120] 0x201, .given 2⟩ := by
  obtain ⟨a, ha, htree⟩ : ∃ a, parsecmd [97, 62, 120, 60, 121, 62, 120] = .ok a ∧
      tree [97, 62, 120, 60, 121, 62, 120] a = Cmd.redirs (.exec [[97]])
        [⟨[120], 0x201, 1⟩, ⟨[121], 0, 0⟩, ⟨[120], 0x201, 1⟩] := ⟨_, rfl, by decide⟩
  have hat : At (tree [97, 62, 120, 60, 121, 62, 120] a) []
    (tree [97, 62, 120, 60, 121, 62, 120] a) _ := .root
  nth_rewrite 2 [htree] at hat
  obtain ⟨-, e', -, -, he', hrun⟩ := redirections_in_order ha hat
  rw [he'.2 fun fd => rfl, htree] at hrun
  obtain ⟨S, hS, hcode⟩ := Lib.exec_exists World.step
    (start (.redirs (.exec [[97]]) [⟨[120], 0x201, 1⟩, ⟨[121], 0, 0⟩, ⟨[120], 0x201, 1⟩]))
    (.replicate 9 0) (fun S : World (List UInt8) =>
      S.procs[0]?.map Proc.code = some (.exec [false, false, false] [[97]] .exit)) (by decide)
  obtain ⟨pr, hpr, hcode⟩ := Option.map_eq_some_iff.1 hcode
  have hmem := List.mem_of_getElem? hpr
  refine ⟨a, ha, ?_⟩
  rw [htree]
  exact ⟨S, hS, pr, hmem, hcode, hrun _ S hS pr hmem _ _ hcode⟩

theorem redirections_reversed : ∃ a S, parsecmd [97, 62, 120, 62, 121] = .ok a ∧
    a.1.map Word.str = Cmd.redirs (.exec [[97]]) [⟨[120], 0x201, 1⟩, ⟨[121], 0x201, 1⟩] ∧
    Lib.exec World.step (start (tree [97, 62, 120, 62, 121] a)) (List.replicate 6 0) = some S ∧
    ∃ pr ∈ S.procs, pr.code = .exec [false, false] [[97]] .exit ∧
      pr.fds 1 = some (.opened [120] 0x201) := by
  exact ⟨_, _, rfl, rfl, rfl, _, List.mem_singleton_self _, rfl, rfl⟩

end Xv6.Sh
