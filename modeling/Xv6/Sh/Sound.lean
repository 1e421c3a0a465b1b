import Xv6.Sh.Grammar

namespace Xv6.Sh

open List (append_assoc append_nil map_cons not_mem_nil replicate)

variable {α β W V : Type}

theorem bind_ok {x : Except Err α} {f : α → Except Err β} {b : β} (h : x >>= f = .ok b) :
    ∃ a, x = .ok a ∧ f a = .ok b := by
  cases x with
  | error e => cases h
  | ok a => exact ⟨a, rfl, h⟩

def Cmd.map (f : W → V) : Cmd W → Cmd V
  | .exec argv => .exec (argv.map f)
  | .redir cmd file mode fd => .redir (cmd.map f) (f file) mode fd
  | .pipe left right => .pipe (left.map f) (right.map f)
  | .list left right => .list (left.map f) (right.map f)
  | .back cmd => .back (cmd.map f)

def Redir.map (f : W → V) (r : Redir W) : Redir V := ⟨f r.file, r.mode, r.fd⟩

def Cmd.words : Cmd W → List W
  | .exec argv => argv
  | .redir cmd file _ _ => cmd.words ++ [file]
  | .pipe left right => left.words ++ right.words
  | .list left right => left.words ++ right.words
  | .back cmd => cmd.words

theorem map_redirs (f : W → V) (c : Cmd W) (rs : List (Redir W)) :
    (c.redirs rs).map f = (c.map f).redirs (rs.map (Redir.map f)) := by
  induction rs generalizing c with
  | nil => rfl
  | cons r rs ih => exact ih (.redir c r.file r.mode r.fd)

theorem map_backs (f : W → V) (c : Cmd W) (k : ℕ) : (c.backs k).map f = (c.map f).backs k := by
  induction k generalizing c with
  | zero => rfl
  | succ k ih => exact ih c.back

theorem words_redirs (c : Cmd W) (rs : List (Redir W)) :
    (c.redirs rs).words = c.words ++ rs.map Redir.file := by
  induction rs generalizing c with
  | nil => exact (append_nil _).symm
  | cons r rs ih =>
    refine (ih (.redir c r.file r.mode r.fd)).trans ?_
    simp [Cmd.words]

theorem words_backs (c : Cmd W) (k : ℕ) : (c.backs k).words = c.words := by
  induction k generalizing c with
  | zero => rfl
  | succ k ih => exact ih c.back

def Word.str (p : Word) : List UInt8 := p.1.take (p.1.length - p.2.length)

theorem Word.In.str_eq {l w : List UInt8} {p : Word} (h : Word.In l p w) : Word.str p = w := by
  rw [Word.str, h.start, List.length_append, Nat.add_sub_cancel, List.take_left]

def Word.Good (l : List UInt8) (p : Word) : Prop := Word.In l p (Word.str p)

variable {s : List UInt8}

theorem Word.In.good {l w : List UInt8} {p : Word} (h : Word.In s p w) (hs : s <:+ l) :
    Word.Good l p := by
  rw [Word.Good, h.str_eq]
  exact ⟨h.suffix.trans hs, h.start, h.chars, h.stop⟩

theorem looks_redir (ts : List Tok) :
    looks [chr '<', chr '>'] ts = ts.head?.any fun t => t.redir.isSome := by
  cases ts with
  | nil => rfl
  | cons t ts => cases t <;> rfl

variable {t : Tok}

theorem redircmd_code {mode : UInt32} {fd : ℕ} (h : t.redir = some (mode, fd)) (p : Word)
    (rs : List (Redir Word)) : redircmd t.code p rs = rs ++ [⟨p, mode, fd⟩] := by
  cases t <;> cases h <;> rfl

theorem code_word (h : t.code = chr 'a') : ∃ w, t = .word w := by
  cases t with
  | word w => exact ⟨w, rfl⟩
  | _ => exact absurd h (by decide)

theorem looks_sym {ts : List Tok}
    (h : t = .pipe ∨ t = .lparen ∨ t = .rparen ∨ t = .semi ∨ t = .amp) :
    looks [t.code] ts = true ↔ ∃ us, ts = t :: us := by
  cases ts with
  | nil => simp [looks]
  | cons t' ts =>
    have hfirst : looks [t.code] (t' :: ts) = true ↔ t' = t := by
      rcases h with rfl | rfl | rfl | rfl | rfl <;> cases t' <;>
        simp [looks, Tok.first, Tok.code] <;> decide
    rw [hfirst]
    simp

theorem next_word (h : (gettoken s).ret = chr 'a') : ∃ w, lex s = .word w :: lex (gettoken s).ps ∧
      Word.In s (gettoken s).word w ∧ (gettoken s).ps <:+ s := by
  cases next s with
  | eof _ _ hret =>
    rw [hret] at h
    exact absurd h (by decide)
  | tok t c r hlex _ _ hret hps hword =>
    rw [hret] at h
    obtain ⟨w, rfl⟩ := code_word h
    exact ⟨w, hlex, hword w rfl, hps⟩

theorem next_sym {ts : List Tok} (h : lex s = t :: ts) :
    (gettoken (skip s)).ret = t.code ∧ lex (gettoken (skip s)).ps = ts ∧
      (gettoken (skip s)).ps <:+ s := by
  rw [← lex_skip] at h
  cases next (skip s) with
  | eof hlex => simp [hlex] at h
  | tok t' c r hlex _ _ hret hps =>
    rw [hlex] at h
    obtain ⟨rfl, rfl⟩ := List.cons_eq_cons.1 h
    exact ⟨hret, rfl, hps.trans (skip_suffix s)⟩

variable {l : List UInt8} {n : ℕ} {rs : List (Redir Word)} {s s' : List UInt8}

theorem parseredirs_sound {rs' : List (Redir Word)} (h : parseredirs n rs s = .ok (rs', s'))
    (hs : s <:+ l) :
    ∃ ts new, lex s = ts ++ lex s' ∧ rs' = rs ++ new ∧ Redirs ts (new.map (Redir.map Word.str)) ∧
      (∀ r ∈ new, Word.Good l r.file) ∧ s' <:+ l := by
  induction n generalizing rs s with
  | zero => cases h
  | succ n ih =>
    unfold parseredirs at h
    rw [peek_eq (by decide), looks_redir] at h
    dsimp only at h
    split at h
    · rename_i hmore
      cases hlex : lex s with
      | nil => simp [hlex] at hmore
      | cons t ts =>
        obtain ⟨⟨mode, fd⟩, hredir⟩ := Option.isSome_iff_exists.1 (by simpa [hlex] using hmore)
        obtain ⟨hret, hts, hps⟩ := next_sym hlex
        split at h
        · cases h
        rename_i hfile
        obtain ⟨w, hw, hin, hps'⟩ := next_word (not_not.1 hfile)
        rw [hret, redircmd_code hredir] at h
        have hgood := hin.good (hps.trans hs)
        obtain ⟨us, new, hus, rfl, hnew, hgoods, hs'⟩ := ih h (hps'.trans (hps.trans hs))
        refine ⟨t :: .word w :: us,
          ⟨(gettoken (gettoken (skip s)).ps).word, mode, fd⟩ :: new, ?_, ?_, ?_, ?_, hs'⟩
        · rw [← hts, hw, hus]
          rfl
        · rw [append_assoc]
          rfl
        · rw [map_cons, Redir.map, hin.str_eq]
          exact .cons t w mode fd us _ hredir hnew
        · intro r hr
          rcases List.mem_cons.1 hr with rfl | hr
          · exact hgood
          · exact hgoods r hr
    · cases h
      refine ⟨[], [], (lex_skip s).symm, (append_nil _).symm, .nil, ?_, (skip_suffix s).trans hs⟩
      exact fun r hr => absurd hr not_mem_nil

variable {c : Cmd Word}

theorem parseamps_sound {c' : Cmd Word} (h : parseamps n c s = .ok (c', s')) (hs : s <:+ l) :
    ∃ k, lex s = replicate k .amp ++ lex s' ∧ c' = c.backs k ∧ s' <:+ l := by
  induction n generalizing c s with
  | zero => cases h
  | succ n ih =>
    unfold parseamps at h
    rw [peek_eq (by decide)] at h
    dsimp only at h
    split at h
    · rename_i hmore
      obtain ⟨ts, hlex⟩ := (looks_sym (t := .amp) (by simp)).1 hmore
      obtain ⟨-, hts, hps⟩ := next_sym hlex
      obtain ⟨k, hk, rfl, hs'⟩ := ih h (hps.trans hs)
      exact ⟨k + 1, by rw [hlex, ← hts, hk]; rfl, rfl, hs'⟩
    · cases h
      exact ⟨0, (lex_skip s).symm, rfl, (skip_suffix s).trans hs⟩

def Tok.stops : Tok → Bool
  | .pipe | .rparen | .amp | .semi => true
  | _ => false

theorem looks_stops (ts : List Tok) :
    looks [chr '|', chr ')', chr '&', chr ';'] ts = ts.head?.any Tok.stops := by
  cases ts with
  | nil => rfl
  | cons t ts => cases t <;> rfl

theorem code_ne_zero (t : Tok) : t.code ≠ 0 := by
  cases t with
  | word w => exact (by decide : chr 'a' ≠ 0)
  | _ => decide

theorem parseargs_sound {argv argv' : List Word} {rs' : List (Redir Word)}
    (h : parseargs n argv rs s = .ok (argv', rs', s')) (hs : s <:+ l) (hlen : argv.length < MAXARGS)
      :
    ∃ ts ws new, lex s = ts ++ lex s' ∧ argv' = argv ++ ws ∧ rs' = rs ++ new ∧
      Args ts (ws.map Word.str) (new.map (Redir.map Word.str)) ∧ argv'.length < MAXARGS ∧
      (∀ p ∈ ws, Word.Good l p) ∧ (∀ r ∈ new, Word.Good l r.file) ∧ s' <:+ l := by
  have hnone : ∀ p ∈ ([] : List Word), Word.Good l p := fun p hp => absurd hp not_mem_nil
  have hnone' : ∀ r ∈ ([] : List (Redir Word)), Word.Good l r.file :=
    fun r hr => absurd hr not_mem_nil
  induction n generalizing argv rs s with
  | zero => cases h
  | succ n ih =>
    unfold parseargs at h
    rw [peek_eq (by decide), looks_stops] at h
    dsimp only at h
    split at h
    · cases h
      exact ⟨[], [], [], (lex_skip s).symm, (append_nil _).symm, (append_nil _).symm,
        .nil, hlen, hnone, hnone', (skip_suffix s).trans hs⟩
    have hskip := (skip_suffix s).trans hs
    split at h
    · rename_i hzero
      cases h
      cases next (skip s) with
      | eof hlex _ _ hps =>
        rw [lex_skip] at hlex
        refine ⟨[], [], [], ?_, (append_nil _).symm, (append_nil _).symm, .nil, hlen,
          hnone, hnone', ?_⟩
        · rw [hps, hlex, lex]
          rfl
        · rw [hps]
          exact List.nil_suffix
      | tok t c r _ _ _ hret => exact absurd (hret.symm.trans hzero) (code_ne_zero t)
    split at h
    · cases h
    rename_i hword
    obtain ⟨w, hw, hin, hps⟩ := next_word (not_not.1 hword)
    split at h
    · cases h
    rename_i hlen'
    obtain ⟨⟨rs1, s1⟩, hredirs, h⟩ := bind_ok h
    obtain ⟨ts, new, hts, rfl, hnew, hgoods, hs1⟩ := parseredirs_sound hredirs (hps.trans hskip)
    obtain ⟨us, ws, new', hus, rfl, rfl, hargs, hlen'', hgoods', hgoods'', hs'⟩ :=
      ih h hs1 (Nat.lt_of_not_le hlen')
    refine ⟨.word w :: (ts ++ us),
      (gettoken (skip s)).word :: ws, new ++ new', ?_, ?_, ?_, ?_, hlen'', ?_, ?_, hs'⟩
    · rw [← lex_skip s, hw, hts, hus]
      simp
    · simp
    · rw [append_assoc]
    · rw [map_cons, List.map_append, hin.str_eq]
      exact .cons w ts us _ _ _ hnew hargs
    · intro p hp
      rcases List.mem_cons.1 hp with rfl | hp
      · exact hin.good hskip
      · exact hgoods' p hp
    · intro r hr
      rcases List.mem_append.1 hr with hr | hr
      · exact hgoods r hr
      · exact hgoods'' r hr

structure Parsed (l : List UInt8) (R : List Tok → Cmd (List UInt8) → Prop) (s : List UInt8)
    (c : Cmd Word) (s' : List UInt8) : Prop where
  derives : ∃ ts, lex s = ts ++ lex s' ∧ R ts (c.map Word.str)
  good : ∀ p ∈ c.words, Word.Good l p
  rest : s' <:+ l

structure Sound (l : List UInt8) (n : ℕ) : Prop where
  line : ∀ {s c s'}, parseline n s = .ok (c, s') → s <:+ l → Parsed l Line s c s'
  pipe : ∀ {s c s'}, parsepipe n s = .ok (c, s') → s <:+ l → Parsed l Pipe s c s'
  exec : ∀ {s c s'}, parseexec n s = .ok (c, s') → s <:+ l → Parsed l Command s c s'
  block : ∀ {s c s'}, parseblock n s = .ok (c, s') → s <:+ l → Parsed l Command s c s'

theorem good_redirs (hc : ∀ p ∈ c.words, Word.Good l p) (hrs : ∀ r ∈ rs, Word.Good l r.file) :
    ∀ p ∈ (c.redirs rs).words, Word.Good l p := by
  intro p hp
  rw [words_redirs] at hp
  rcases List.mem_append.1 hp with hp | hp
  · exact hc p hp
  · obtain ⟨r, hr, rfl⟩ := List.mem_map.1 hp
    exact hrs r hr

section
variable (ih : Sound l n)
include ih

theorem Sound.succ_line (h : parseline (n + 1) s = .ok (c, s')) (hs : s <:+ l) :
    Parsed l Line s c s' := by
  unfold parseline at h
  obtain ⟨⟨c1, s1⟩, hpipe, h⟩ := bind_ok h
  obtain ⟨⟨c2, s2⟩, hamps, h⟩ := bind_ok h
  obtain ⟨⟨ts, hts, hder⟩, hgood, hs1⟩ := ih.pipe hpipe hs
  obtain ⟨k, hk, rfl, hs2⟩ := parseamps_sound hamps hs1
  dsimp only at h
  rw [peek_eq (by decide)] at h
  dsimp only at h
  split at h
  · rename_i hmore
    obtain ⟨us, hus⟩ := (looks_sym (t := .semi) (by simp)).1 hmore
    obtain ⟨-, hus', hps⟩ := next_sym hus
    obtain ⟨⟨c3, s3⟩, hline, h⟩ := bind_ok h
    obtain ⟨⟨vs, hvs, hder'⟩, hgood', hs3⟩ := ih.line hline (hps.trans hs2)
    cases h
    refine ⟨⟨ts ++ replicate k .amp ++ .semi :: vs, ?_, ?_⟩, ?_, hs3⟩
    · rw [hts, hk, hus, ← hus', hvs]
      simp
    · rw [Cmd.map, map_backs]
      exact .more ts vs _ _ k hder hder'
    intro p hp
    rcases List.mem_append.1 hp with hp | hp
    · rw [words_backs] at hp
      exact hgood p hp
    · exact hgood' p hp
  · cases h
    refine ⟨⟨ts ++ replicate k .amp, ?_, ?_⟩, ?_, (skip_suffix s2).trans hs2⟩
    · rw [hts, hk, lex_skip, append_assoc]
    · rw [map_backs]
      exact .last ts _ k hder
    · rwa [words_backs]

theorem Sound.succ_pipe (h : parsepipe (n + 1) s = .ok (c, s')) (hs : s <:+ l) :
    Parsed l Pipe s c s' := by
  unfold parsepipe at h
  obtain ⟨⟨c1, s1⟩, hexec, h⟩ := bind_ok h
  obtain ⟨⟨ts, hts, hder⟩, hgood, hs1⟩ := ih.exec hexec hs
  dsimp only at h
  rw [peek_eq (by decide)] at h
  dsimp only at h
  split at h
  · rename_i hmore
    obtain ⟨us, hus⟩ := (looks_sym (t := .pipe) (by simp)).1 hmore
    obtain ⟨-, hus', hps⟩ := next_sym hus
    obtain ⟨⟨c3, s3⟩, hpipe, h⟩ := bind_ok h
    obtain ⟨⟨vs, hvs, hder'⟩, hgood', hs3⟩ := ih.pipe hpipe (hps.trans hs1)
    cases h
    refine ⟨⟨ts ++ .pipe :: vs, ?_, .more ts vs _ _ hder hder'⟩, ?_, hs3⟩
    · rw [hts, hus, ← hus', hvs]
      simp
    · intro p hp
      rcases List.mem_append.1 hp with hp | hp
      · exact hgood p hp
      · exact hgood' p hp
  · cases h
    refine ⟨⟨ts, ?_, .last ts _ hder⟩, hgood, (skip_suffix s1).trans hs1⟩
    rw [hts, lex_skip]

theorem Sound.succ_exec (h : parseexec (n + 1) s = .ok (c, s')) (hs : s <:+ l) :
    Parsed l Command s c s' := by
  unfold parseexec at h
  rw [peek_eq (by decide)] at h
  dsimp only at h
  have hskip := (skip_suffix s).trans hs
  split at h
  · obtain ⟨hder, hgood, hs'⟩ := ih.block h hskip
    rw [lex_skip] at hder
    exact ⟨hder, hgood, hs'⟩
  obtain ⟨⟨rs, s1⟩, hredirs, h⟩ := bind_ok h
  obtain ⟨⟨argv, rs', s2⟩, hargs, h⟩ := bind_ok h
  obtain ⟨ts, new, hts, rfl, hnew, hgoods, hs1⟩ := parseredirs_sound hredirs hskip
  obtain ⟨us, ws, new', hus, rfl, rfl, hargs', hlen, hgoods', hgoods'', hs2⟩ :=
    parseargs_sound hargs hs1 (by decide)
  cases h
  refine ⟨⟨ts ++ us, ?_, ?_⟩, ?_, hs2⟩
  · rw [← lex_skip, hts, hus, append_assoc]
  · rw [map_redirs]
    dsimp only
    rw [List.map_append]
    refine .exec ts us _ _ _ hnew hargs' ?_
    rw [List.length_map]
    exact Nat.le_pred_of_lt hlen
  · refine good_redirs hgoods' fun r hr => ?_
    rcases List.mem_append.1 hr with hr | hr
    · exact hgoods r hr
    · exact hgoods'' r hr

theorem Sound.succ_block (h : parseblock (n + 1) s = .ok (c, s')) (hs : s <:+ l) :
    Parsed l Command s c s' := by
  unfold parseblock at h
  rw [peek_eq (by decide)] at h
  dsimp only at h
  split at h
  · rename_i hopen
    obtain ⟨us, hus⟩ := (looks_sym (t := .lparen) (by simp)).1 hopen
    obtain ⟨-, hus', hps⟩ := next_sym hus
    obtain ⟨⟨c1, s1⟩, hline, h⟩ := bind_ok h
    obtain ⟨⟨ts, hts, hder⟩, hgood, hs1⟩ := ih.line hline (hps.trans hs)
    dsimp only at h
    rw [peek_eq (by decide)] at h
    dsimp only at h
    split at h
    · rename_i hclose
      obtain ⟨vs, hvs⟩ := (looks_sym (t := .rparen) (by simp)).1 hclose
      obtain ⟨-, hvs', hps'⟩ := next_sym hvs
      obtain ⟨⟨rs, s2⟩, hredirs, h⟩ := bind_ok h
      obtain ⟨ws, new, hws, rfl, hnew, hgoods, hs2⟩ := parseredirs_sound hredirs (hps'.trans hs1)
      cases h
      refine ⟨⟨.lparen :: (ts ++ .rparen :: ws), ?_, ?_⟩, good_redirs hgood hgoods, hs2⟩
      · rw [hus, ← hus', hts, hvs, ← hvs', hws]
        simp
      · rw [map_redirs]
        exact .block ts ws _ _ hder hnew
    · cases h
  · cases h

end

theorem sound (l : List UInt8) (n : ℕ) : Sound l n := by
  induction n with
  | zero => exact ⟨nofun, nofun, nofun, nofun⟩
  | succ n ih => exact ⟨ih.succ_line, ih.succ_pipe, ih.succ_exec, ih.succ_block⟩

end Xv6.Sh
