import Xv6.Sh.Sound

/-!
If there is a derivation the parser finds it, and it never runs out of fuel
if it has some for each token.

A derivation need not be of the whole line, so what follows it must not be
something that the parser would take as a continuation. After a command
that is the end of the line, `|`, `&`, `;` or `)`; after a pipeline `|` is
no longer possible, and after a line only `)` is.
-/

namespace Xv6.Sh

open List (append_assoc append_nil cons_append map_cons nil_append)

variable {α β : Type}

def Yields (x : Except Err α) (Q : α → Prop) : Prop := x = .error .fuel ∨ ∃ a, x = .ok a ∧ Q a

theorem Yields.ok {a : α} {Q : α → Prop} (h : Q a) : Yields (.ok a) Q := .inr ⟨a, rfl, h⟩

theorem Yields.bind {x : Except Err α} {f : α → Except Err β} {Q : α → Prop} {R : β → Prop}
    (h : Yields x Q) (hf : ∀ a, Q a → Yields (f a) R) : Yields (x >>= f) R := by
  rcases h with rfl | ⟨a, rfl, ha⟩
  · exact .inl rfl
  · exact hf a ha

def Follow (fs : List Tok) (r : List Tok) : Prop := ∀ t, r.head? = some t → t ∈ fs

variable {fs r : List Tok}

theorem Follow.mono {fs' : List Tok} (h : Follow fs r) (hsub : fs ⊆ fs') : Follow fs' r :=
  fun t ht => hsub (h t ht)

theorem follow_cons {t : Tok} (h : t ∈ fs) : Follow fs (t :: r) := by
  intro t' ht
  obtain rfl : t = t' := by simpa using ht
  exact h

abbrev cmdFollow : List Tok := [.pipe, .amp, .semi, .rparen]
abbrev pipeFollow : List Tok := [.amp, .semi, .rparen]
abbrev lineFollow : List Tok := [.rparen]

theorem Follow.looks_eq_false {toks : List UInt8} (h : Follow fs r)
    (hno : ∀ t ∈ fs, looks toks [t] = false) : looks toks r = false := by
  cases r with
  | nil => rfl
  | cons t r => exact hno t (h t rfl)

def NoRedir (r : List Tok) : Prop := looks [chr '<', chr '>'] r = false

theorem Follow.noRedir (h : Follow cmdFollow r) : NoRedir r :=
  h.looks_eq_false (by decide)

variable {s : List UInt8} {ts : List Tok}

theorem next_of_word {w : List UInt8} (h : lex s = .word w :: ts) :
    (gettoken s).ret = chr 'a' ∧ lex (gettoken s).ps = ts ∧
      Word.str (gettoken s).word = w := by
  cases next s with
  | eof hlex => simp [hlex] at h
  | tok t c r hlex _ _ hret _ hword =>
    rw [hlex] at h
    obtain ⟨rfl, rfl⟩ := List.cons_eq_cons.1 h
    exact ⟨hret, rfl, (hword w rfl).str_eq⟩

variable {n : ℕ} {rs : List (Redir (List UInt8))}

theorem parseredirs_complete {acc : List (Redir Word)} (hd : Redirs ts rs) (hs : lex s = ts ++ r)
    (hr : NoRedir r) : Yields (parseredirs n acc s) fun a =>
      ∃ new, a.1 = acc ++ new ∧ new.map (Redir.map Word.str) = rs ∧ lex a.2 = r := by
  induction n generalizing ts rs acc s with
  | zero => exact .inl rfl
  | succ n ih =>
    unfold parseredirs
    rw [peek_eq (by decide)]
    dsimp only
    cases hd with
    | nil =>
      rw [hs, nil_append, show looks _ r = false from hr, if_neg Bool.false_ne_true]
      exact .ok ⟨[], (append_nil _).symm, rfl, (lex_skip s).trans hs⟩
    | cons t w mode fd ts rs ht hd =>
      have hlooks : looks [chr '<', chr '>'] (lex s) = true := by
        rw [looks_redir, hs]
        simp [ht]
      obtain ⟨hret, hts, -⟩ := next_sym hs
      obtain ⟨hret', hts', hstr⟩ := next_of_word hts
      rw [if_pos hlooks, if_neg (not_not_intro hret'), hret, redircmd_code ht]
      rcases ih hd hts' with hfuel | ⟨a, ha, new, hnew, hmap, hlex⟩
      · exact .inl hfuel
      refine .inr ⟨a, ha, ⟨(gettoken (gettoken (skip s)).ps).word, mode, fd⟩ :: new, ?_, ?_, hlex⟩
      · rw [hnew, append_assoc]
        rfl
      · rw [map_cons, Redir.map, hstr, hmap]

theorem parseamps_complete {k : ℕ} {c : Cmd Word} (hs : lex s = List.replicate k .amp ++ r)
    (hr : looks [chr '&'] r = false) :
    Yields (parseamps n c s) fun a => a.1 = c.backs k ∧ lex a.2 = r := by
  induction n generalizing k c s with
  | zero => exact .inl rfl
  | succ n ih =>
    unfold parseamps
    rw [peek_eq (by decide), hs]
    dsimp only
    cases k with
    | zero =>
      rw [List.replicate_zero, nil_append, hr, if_neg Bool.false_ne_true]
      exact .ok ⟨rfl, (lex_skip s).trans hs⟩
    | succ k =>
      rw [List.replicate_succ, cons_append] at hs ⊢
      rw [if_pos (by rfl)]
      exact ih (next_sym hs).2.1

variable {us : List Tok} {ws : List (List UInt8)}

theorem Args.noRedir (h : Args us ws rs) (hr : Follow cmdFollow r) : NoRedir (us ++ r) := by
  cases h with
  | nil => exact hr.noRedir
  | cons => rfl

theorem parseargs_complete {argv : List Word} {acc : List (Redir Word)} (hd : Args us ws rs)
    (hs : lex s = us ++ r) (hr : Follow cmdFollow r) (hlen : argv.length + ws.length < MAXARGS) :
    Yields (parseargs n argv acc s) fun a =>
      ∃ new new', a.1 = argv ++ new ∧ new.map Word.str = ws ∧ a.2.1 = acc ++ new' ∧
        new'.map (Redir.map Word.str) = rs ∧ lex a.2.2 = r := by
  induction n generalizing us ws rs argv acc s with
  | zero => exact .inl rfl
  | succ n ih =>
    unfold parseargs
    rw [peek_eq (by decide), hs]
    dsimp only
    cases hd with
    | nil =>
      rw [nil_append] at hs ⊢
      cases hrr : r with
      | nil =>
        rw [hrr] at hs
        cases next (skip s) with
        | eof _ _ hret hps =>
          rw [if_neg (by simp [looks]), if_pos hret]
          refine .ok ⟨[], [], (append_nil _).symm, rfl, (append_nil _).symm, rfl, ?_⟩
          rw [hps, lex]
        | tok t c r hlex => rw [lex_skip, hs] at hlex; cases hlex
      | cons t r' =>
        have hstop : looks [chr '|', chr ')', chr '&', chr ';'] (t :: r') = true := by
          have ht := hr t (by rw [hrr]; rfl)
          rw [looks_stops]
          simp only [cmdFollow, List.mem_cons, List.not_mem_nil, or_false] at ht
          rcases ht with rfl | rfl | rfl | rfl <;> rfl
        rw [if_pos hstop]
        refine .ok ⟨[], [], (append_nil _).symm, rfl, (append_nil _).symm, rfl, ?_⟩
        rw [lex_skip, hs, hrr]
    | cons w ts us ws rs rs' hredirs hargs =>
      rw [cons_append, append_assoc] at hs ⊢
      obtain ⟨hret, hts, hstr⟩ := next_of_word ((lex_skip s).trans hs)
      have hlen' : (argv ++ [(gettoken (skip s)).word]).length + ws.length < MAXARGS := by
        simp only [List.length_append, List.length_cons, List.length_nil] at hlen ⊢
        omega
      rw [if_neg (by simp [looks, Tok.first]), if_neg (by rw [hret]; decide),
        if_neg (not_not_intro hret), if_neg (by omega)]
      refine (parseredirs_complete hredirs hts (hargs.noRedir hr)).bind ?_
      rintro ⟨rs1, s1⟩ ⟨new, rfl, hnew, hs1⟩
      rcases ih hargs hs1 hlen' with hfuel | ⟨a, ha, ws', new', hws, hmap, hrs, hmap', hlex⟩
      · exact .inl hfuel
      refine .inr ⟨a, ha, (gettoken (skip s)).word :: ws', new ++ new', ?_, ?_, ?_, ?_, hlex⟩
      · rw [hws, append_assoc]
        rfl
      · rw [map_cons, hstr, hmap]
      · rw [hrs, append_assoc]
      · rw [List.map_append, hnew, hmap']

/-! ### Commands -/

def Found (c : Cmd (List UInt8)) (r : List Tok) (a : Cmd Word × Ptr) : Prop :=
  a.1.map Word.str = c ∧ lex a.2 = r

structure Complete (n : ℕ) : Prop where
  line : ∀ {s ts r c}, Line ts c → lex s = ts ++ r → Follow lineFollow r →
    Yields (parseline n s) (Found c r)
  pipe : ∀ {s ts r c}, Pipe ts c → lex s = ts ++ r → Follow pipeFollow r →
    Yields (parsepipe n s) (Found c r)
  exec : ∀ {s ts r c}, Command ts c → lex s = ts ++ r → Follow cmdFollow r →
    Yields (parseexec n s) (Found c r)
  block : ∀ {s ts us r c rs}, Line ts c → Redirs us rs →
    lex s = .lparen :: (ts ++ .rparen :: (us ++ r)) → Follow cmdFollow r →
    Yields (parseblock n s) (Found (c.redirs rs) r)

variable {c : Cmd (List UInt8)}

theorem Complete.succ_line (ih : Complete n) (hd : Line ts c) (hs : lex s = ts ++ r)
    (hr : Follow lineFollow r) : Yields (parseline (n + 1) s) (Found c r) := by
  have hamps : ∀ k r', Follow [.semi, .rparen] r' →
      Follow pipeFollow (.replicate k .amp ++ r') ∧ looks [chr '&'] r' = false := by
    intro k r' hr'
    refine ⟨?_, hr'.looks_eq_false (by decide)⟩
    cases k with
    | zero => exact hr'.mono (by simp)
    | succ k => exact follow_cons (by simp)
  unfold parseline
  cases hd with
  | last ts c k hpipe =>
    rw [append_assoc] at hs
    obtain ⟨hfollow, hno⟩ := hamps k r (hr.mono (by simp))
    refine (ih.pipe hpipe hs hfollow).bind ?_
    rintro ⟨c1, s1⟩ ⟨rfl, hs1⟩
    refine (parseamps_complete hs1 hno).bind ?_
    rintro ⟨c2, s2⟩ ⟨rfl, hs2⟩
    dsimp only at hs2 ⊢
    rw [peek_eq (by decide), hs2, hr.looks_eq_false (by decide)]
    exact .ok ⟨map_backs .., (lex_skip s2).trans hs2⟩
  | more ts us c d k hpipe hline =>
    rw [append_assoc, append_assoc, cons_append] at hs
    obtain ⟨hfollow, hno⟩ := hamps k (.semi :: (us ++ r)) (follow_cons (by simp))
    refine (ih.pipe hpipe hs hfollow).bind ?_
    rintro ⟨c1, s1⟩ ⟨rfl, hs1⟩
    refine (parseamps_complete hs1 hno).bind ?_
    rintro ⟨c2, s2⟩ ⟨rfl, hs2⟩
    dsimp only at hs2 ⊢
    rw [peek_eq (by decide), hs2]
    dsimp only
    rw [if_pos (by rfl)]
    refine (ih.line hline (next_sym hs2).2.1 hr).bind ?_
    rintro ⟨c3, s3⟩ ⟨rfl, hs3⟩
    refine .ok ⟨?_, hs3⟩
    rw [Cmd.map, map_backs]

theorem Complete.succ_pipe (ih : Complete n) (hd : Pipe ts c) (hs : lex s = ts ++ r)
    (hr : Follow pipeFollow r) : Yields (parsepipe (n + 1) s) (Found c r) := by
  unfold parsepipe
  cases hd with
  | last ts c hcmd =>
    refine (ih.exec hcmd hs (hr.mono (by simp))).bind ?_
    rintro ⟨c1, s1⟩ ⟨rfl, hs1⟩
    dsimp only at hs1 ⊢
    rw [peek_eq (by decide), hs1, hr.looks_eq_false (by decide)]
    exact .ok ⟨rfl, (lex_skip s1).trans hs1⟩
  | more ts us c d hcmd hpipe =>
    rw [append_assoc, cons_append] at hs
    refine (ih.exec hcmd hs (follow_cons (by simp))).bind ?_
    rintro ⟨c1, s1⟩ ⟨rfl, hs1⟩
    dsimp only at hs1 ⊢
    rw [peek_eq (by decide), hs1]
    dsimp only
    rw [if_pos (by rfl)]
    refine (ih.pipe hpipe (next_sym hs1).2.1 hr).bind ?_
    rintro ⟨c2, s2⟩ ⟨rfl, hs2⟩
    exact .ok ⟨rfl, hs2⟩

theorem Redirs.not_paren {rs' : List (Redir (List UInt8))} (h : Redirs ts rs) (h' : Args us ws rs')
    (hr : Follow cmdFollow r) : looks [chr '('] (ts ++ (us ++ r)) = false := by
  cases h with
  | nil =>
    cases h' with
    | nil => exact hr.looks_eq_false (by decide)
    | cons => rfl
  | cons t _ _ _ _ _ ht => cases t <;> first | rfl | cases ht

theorem Complete.succ_exec (ih : Complete n) (hd : Command ts c) (hs : lex s = ts ++ r)
    (hr : Follow cmdFollow r) : Yields (parseexec (n + 1) s) (Found c r) := by
  unfold parseexec
  rw [peek_eq (by decide), hs]
  dsimp only
  cases hd with
  | block ts us c rs hline hredirs =>
    rw [cons_append, append_assoc, cons_append] at hs ⊢
    rw [if_pos (by rfl)]
    exact ih.block hline hredirs ((lex_skip s).trans hs) hr
  | exec ts us ws rs rs' hredirs hargs hlen =>
    rw [append_assoc] at hs ⊢
    rw [hredirs.not_paren hargs hr, if_neg Bool.false_ne_true]
    refine (parseredirs_complete hredirs ((lex_skip s).trans hs) (hargs.noRedir hr)).bind ?_
    rintro ⟨rs1, s1⟩ ⟨new, rfl, hnew, hs1⟩
    have hlen' : ([] : List Word).length + ws.length < MAXARGS := by
      simp only [List.length_nil, MAXARGS] at hlen ⊢
      omega
    refine (parseargs_complete hargs hs1 hr hlen').bind ?_
    rintro ⟨argv, rs2, s2⟩ ⟨ws', new', rfl, rfl, rfl, hnew', hs2⟩
    refine .ok ⟨?_, hs2⟩
    rw [map_redirs]
    dsimp only at hnew ⊢
    rw [List.map_append, hnew, hnew']
    rfl

theorem Complete.succ_block (ih : Complete n) (hline : Line ts c)
    (hredirs : Redirs us rs) (hs : lex s = .lparen :: (ts ++ .rparen :: (us ++ r)))
    (hr : Follow cmdFollow r) : Yields (parseblock (n + 1) s) (Found (c.redirs rs) r) := by
  unfold parseblock
  rw [peek_eq (by decide), hs]
  dsimp only
  rw [if_pos (by rfl)]
  refine (ih.line hline (next_sym hs).2.1 (follow_cons (by simp))).bind ?_
  rintro ⟨c1, s1⟩ ⟨rfl, hs1⟩
  dsimp only at hs1 ⊢
  rw [peek_eq (by decide), hs1]
  dsimp only
  rw [if_pos (by rfl)]
  refine (parseredirs_complete hredirs (next_sym hs1).2.1 hr.noRedir).bind ?_
  rintro ⟨rs1, s2⟩ ⟨new, rfl, hnew, hs2⟩
  refine .ok ⟨?_, hs2⟩
  rw [map_redirs, ← hnew]

theorem complete (n : ℕ) : Complete n := by
  induction n with
  | zero => exact ⟨fun _ _ _ => .inl rfl, fun _ _ _ => .inl rfl, fun _ _ _ => .inl rfl,
      fun _ _ _ _ => .inl rfl⟩
  | succ n ih => exact ⟨ih.succ_line, ih.succ_pipe, ih.succ_exec, ih.succ_block⟩

end Xv6.Sh
