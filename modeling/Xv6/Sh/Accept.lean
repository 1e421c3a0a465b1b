import Xv6.Sh.Complete

namespace Xv6.Sh

open List (foldl_append length_append length_cons map_append mem_append_left suffix_refl)

variable {α β : Type}

theorem bind_ne_fuel {x : Except Err α} {f : α → Except Err β} (hx : x ≠ .error .fuel)
    (hf : ∀ a, x = .ok a → f a ≠ .error .fuel) : x >>= f ≠ .error .fuel := by
  cases x with
  | ok a => exact hf a rfl
  | error e => exact fun h => hx (by cases h; rfl)

theorem ok_ne_fuel (a : α) : (.ok a : Except Err α) ≠ .error .fuel := by
  intro h
  cases h

theorem panic_ne_fuel (p : Panic) : (.error (.panic p) : Except Err α) ≠ .error .fuel := by
  intro h
  cases h

theorem length_le_of_eq_append {ts us vs : List Tok} (h : ts = us ++ vs) :
    vs.length ≤ ts.length := by
  rw [h, length_append]
  omega

variable {n : ℕ} {s : List UInt8}

theorem parseredirs_ne_fuel {rs : List (Redir Word)} (h : (lex s).length < n) :
    parseredirs n rs s ≠ .error .fuel := by
  induction n generalizing rs s with
  | zero => omega
  | succ n ih =>
    unfold parseredirs
    rw [peek_eq (by decide)]
    dsimp only
    split
    · rename_i hmore
      split
      · exact panic_ne_fuel _
      rename_i hfile
      obtain ⟨w, hw, -, -⟩ := next_word (not_not.1 hfile)
      cases hlex : lex s with
      | nil => simp [hlex, looks] at hmore
      | cons t ts =>
        obtain ⟨-, hts, -⟩ := next_sym hlex
        refine ih ?_
        rw [hlex, ← hts, hw] at h
        simp only [length_cons] at h
        omega
    · exact ok_ne_fuel _

theorem parseamps_ne_fuel {c : Cmd Word} (h : (lex s).length < n) :
    parseamps n c s ≠ .error .fuel := by
  induction n generalizing c s with
  | zero => omega
  | succ n ih =>
    unfold parseamps
    rw [peek_eq (by decide)]
    dsimp only
    split
    · rename_i hmore
      obtain ⟨ts, hlex⟩ := (looks_sym (t := .amp) (by simp)).1 hmore
      refine ih ?_
      rw [(next_sym hlex).2.1]
      rw [hlex, length_cons] at h
      omega
    · exact ok_ne_fuel _

theorem parseargs_ne_fuel {argv : List Word} {rs : List (Redir Word)} (h : (lex s).length < n) :
    parseargs n argv rs s ≠ .error .fuel := by
  induction n generalizing argv rs s with
  | zero => omega
  | succ n ih =>
    unfold parseargs
    rw [peek_eq (by decide)]
    dsimp only
    split
    · exact ok_ne_fuel _
    split
    · exact ok_ne_fuel _
    split
    · exact panic_ne_fuel _
    rename_i hword
    obtain ⟨w, hw, -, -⟩ := next_word (not_not.1 hword)
    rw [← lex_skip, hw, length_cons] at h
    split
    · exact panic_ne_fuel _
    refine bind_ne_fuel (parseredirs_ne_fuel (by omega)) ?_
    rintro ⟨rs', s'⟩ hredirs
    obtain ⟨ts, -, hts, -⟩ := parseredirs_sound hredirs (suffix_refl _)
    have := length_le_of_eq_append hts
    exact ih (by dsimp only; omega)

structure Fueled (n : ℕ) : Prop where
  line : ∀ {s}, 4 * (lex s).length + 4 ≤ n → parseline n s ≠ .error .fuel
  pipe : ∀ {s}, 4 * (lex s).length + 3 ≤ n → parsepipe n s ≠ .error .fuel
  exec : ∀ {s}, 4 * (lex s).length + 2 ≤ n → parseexec n s ≠ .error .fuel
  block : ∀ {s}, 4 * (lex s).length + 1 ≤ n → parseblock n s ≠ .error .fuel

theorem Parsed.length_le {l s' : List UInt8} {R : List Tok → Cmd (List UInt8) → Prop} {c : Cmd Word}
    (h : Parsed l R s c s') : (lex s').length ≤ (lex s).length := by
  obtain ⟨ts, hts, -⟩ := h.derives
  exact length_le_of_eq_append hts

theorem fueled (n : ℕ) : Fueled n := by
  induction n with
  | zero => exact ⟨by omega, by omega, by omega, by omega⟩
  | succ n ih =>
    refine ⟨fun {s} h => ?_, fun {s} h => ?_, fun {s} h => ?_, fun {s} h => ?_⟩
    · unfold parseline
      refine bind_ne_fuel (ih.pipe (by omega)) ?_
      rintro ⟨c1, s1⟩ hpipe
      have hle := ((sound s n).pipe hpipe (suffix_refl s)).length_le
      refine bind_ne_fuel (parseamps_ne_fuel (by omega)) ?_
      rintro ⟨c2, s2⟩ hamps
      obtain ⟨k, hk, -⟩ := parseamps_sound hamps (suffix_refl _)
      have hle' := length_le_of_eq_append hk
      dsimp only at hle' ⊢
      rw [peek_eq (by decide)]
      dsimp only
      split
      · rename_i hmore
        obtain ⟨ts, hlex⟩ := (looks_sym (t := .semi) (by simp)).1 hmore
        have hlen := congrArg List.length hlex
        rw [length_cons] at hlen
        refine bind_ne_fuel (ih.line ?_) (fun _ _ => ok_ne_fuel _)
        rw [(next_sym hlex).2.1]
        omega
      · exact ok_ne_fuel _
    · unfold parsepipe
      refine bind_ne_fuel (ih.exec (by omega)) ?_
      rintro ⟨c1, s1⟩ hexec
      have hle := ((sound s n).exec hexec (suffix_refl s)).length_le
      dsimp only
      rw [peek_eq (by decide)]
      dsimp only
      split
      · rename_i hmore
        obtain ⟨ts, hlex⟩ := (looks_sym (t := .pipe) (by simp)).1 hmore
        have hlen := congrArg List.length hlex
        rw [length_cons] at hlen
        refine bind_ne_fuel (ih.pipe ?_) (fun _ _ => ok_ne_fuel _)
        rw [(next_sym hlex).2.1]
        omega
      · exact ok_ne_fuel _
    · unfold parseexec
      rw [peek_eq (by decide)]
      dsimp only
      split
      · exact ih.block (by rw [lex_skip]; omega)
      refine bind_ne_fuel (parseredirs_ne_fuel (by rw [lex_skip]; omega)) ?_
      rintro ⟨rs, s1⟩ hredirs
      obtain ⟨ts, -, hts, -⟩ := parseredirs_sound hredirs (suffix_refl _)
      have hle := length_le_of_eq_append hts
      rw [lex_skip] at hle
      exact bind_ne_fuel (parseargs_ne_fuel (by dsimp only; omega)) (fun _ _ => ok_ne_fuel _)
    · unfold parseblock
      rw [peek_eq (by decide)]
      dsimp only
      split
      · rename_i hopen
        obtain ⟨ts, hlex⟩ := (looks_sym (t := .lparen) (by simp)).1 hopen
        have hlen := congrArg List.length hlex
        rw [length_cons] at hlen
        refine bind_ne_fuel (ih.line (by rw [(next_sym hlex).2.1]; omega)) ?_
        rintro ⟨c1, s1⟩ hline
        have hle := ((sound _ n).line hline (suffix_refl _)).length_le
        rw [(next_sym hlex).2.1] at hle
        dsimp only
        rw [peek_eq (by decide)]
        dsimp only
        split
        · rename_i hclose
          obtain ⟨us, hlex'⟩ := (looks_sym (t := .rparen) (by simp)).1 hclose
          have hlen' := congrArg List.length hlex'
          rw [length_cons] at hlen'
          refine bind_ne_fuel (parseredirs_ne_fuel ?_) (fun _ _ => ok_ne_fuel _)
          rw [(next_sym hlex').2.1]
          omega
        · exact panic_ne_fuel _
      · exact panic_ne_fuel _

theorem length_lex_le (s : List UInt8) : (lex s).length ≤ s.length := by
  fun_induction lex s with
  | case1 => exact Nat.le_refl _
  | case2 c s _ ih => exact Nat.le_succ_of_le ih
  | case3 s _ _ ih =>
    simp only [length_cons, List.length_tail] at ih ⊢
    omega
  | case4 s _ _ ih => exact Nat.succ_le_succ ih
  | case5 c s _ _ t _ ih => exact Nat.succ_le_succ ih
  | case6 c s _ _ _ ih =>
    exact Nat.succ_le_succ (ih.trans (List.dropWhile_sublist _).length_le)

def cstr (mem : List UInt8) (i : ℕ) : List UInt8 := (mem.drop i).takeWhile (· ≠ 0)

theorem takeWhile_eq {w m : List UInt8} (hw : ∀ c ∈ w, c ≠ 0)
    (hm : ∀ k, k < w.length → m[k]? = w[k]?)
    (hend : ∀ c, m[w.length]? = some c → c = 0) : m.takeWhile (· ≠ 0) = w := by
  induction w generalizing m with
  | nil =>
    cases m with
    | nil => rfl
    | cons c m => simp [hend c rfl]
  | cons c w ih =>
    have hhead := hm 0 (Nat.succ_pos _)
    cases m with
    | nil => simp at hhead
    | cons d m =>
      obtain rfl : d = c := by simpa using hhead
      have hd : decide (d ≠ 0) = true := decide_eq_true (hw d (List.mem_cons_self ..))
      simp only [List.takeWhile_cons, hd, if_true]
      congr 1
      exact ih (fun c hc => hw c (List.mem_cons_of_mem _ hc))
        (fun k hk => hm (k + 1) (Nat.succ_lt_succ hk)) hend

theorem getElem?_foldl_set (is : List ℕ) (mem : List UInt8) (k : ℕ) :
    (is.foldl (fun m i => m.set i 0) mem)[k]? =
      if k ∈ is then mem[k]?.map fun _ => 0 else mem[k]? := by
  induction is generalizing mem with
  | nil => simp
  | cons i is ih =>
    rw [List.foldl_cons, ih, List.getElem?_set']
    by_cases hk : i = k
    · subst hk
      by_cases hi : i ∈ is <;> cases mem[i]? <;> simp [hi]
    · have hk' : k ≠ i := fun h => hk h.symm
      simp [hk, hk']

theorem nulterminate_eq (len : ℕ) (cmd : Cmd Word) (mem : List UInt8) :
    nulterminate len cmd mem =
      (cmd.words.map fun w => len - w.2.length).foldl (fun m i => m.set i 0) mem := by
  induction cmd generalizing mem with
  | exec argv => rw [nulterminate, Cmd.words, List.foldl_map]
  | redir cmd file _ _ ih =>
    rw [nulterminate, Cmd.words, ih, map_append, foldl_append]
    rfl
  | pipe left right ihl ihr =>
    rw [nulterminate, Cmd.words, ihl, ihr, map_append, foldl_append]
  | list left right ihl ihr =>
    rw [nulterminate, Cmd.words, ihl, ihr, map_append, foldl_append]
  | back cmd ih => rw [nulterminate, Cmd.words, ih]

theorem map_congr_words {W V : Type} {f g : W → V} {c : Cmd W} (h : ∀ p ∈ c.words, f p = g p) :
    c.map f = c.map g := by
  induction c with
  | exec argv => exact congrArg Cmd.exec (List.map_congr_left h)
  | redir cmd file mode fd ih =>
    rw [Cmd.map, Cmd.map, ih fun p hp => h p (mem_append_left _ hp),
      h file (List.mem_append_right _ (List.mem_singleton_self _))]
  | pipe left right ihl ihr =>
    rw [Cmd.map, Cmd.map, ihl fun p hp => h p (mem_append_left _ hp),
      ihr fun p hp => h p (List.mem_append_right _ hp)]
  | list left right ihl ihr =>
    rw [Cmd.map, Cmd.map, ihl fun p hp => h p (mem_append_left _ hp),
      ihr fun p hp => h p (List.mem_append_right _ hp)]
  | back cmd ih => rw [Cmd.map, Cmd.map, ih h]

theorem getElem?_of_suffix {l : List UInt8} (h : s <:+ l) (k : ℕ) :
    l[l.length - s.length + k]? = s[k]? := by
  obtain ⟨t, rfl⟩ := h
  rw [length_append, Nat.add_sub_cancel, List.getElem?_append_right (Nat.le_add_right _ _),
    Nat.add_sub_cancel_left]

theorem cstr_nulterminate {line rest : List UInt8} {cmd : Cmd Word}
    (hgood : ∀ p ∈ cmd.words, Word.Good line p) (hline : ∀ c ∈ line, c ≠ 0) {p : Word}
    (hp : p ∈ cmd.words) :
    cstr (nulterminate line.length cmd (line ++ rest)) (line.length - p.1.length) =
      Word.str p := by
  obtain ⟨hsuf, hstart, hchars, -⟩ := hgood p hp
  have hlen : p.1.length = (Word.str p).length + p.2.length := by
    conv_lhs => rw [hstart, length_append]
  have hle := hsuf.length_le
  have hget : ∀ k, k < (Word.str p).length →
      getElem? line (line.length - p.1.length + k) = getElem? (Word.str p) k := by
    intro k hk
    rw [getElem?_of_suffix hsuf, hstart, List.getElem?_append_left hk]
  rw [nulterminate_eq, cstr]
  refine takeWhile_eq (fun c hc => hline c ?_) (fun k hk => ?_) (fun c hc => ?_)
  · refine hsuf.subset ?_
    rw [hstart]
    exact mem_append_left _ hc
  · rw [List.getElem?_drop, getElem?_foldl_set, if_neg, List.getElem?_append_left (by omega),
      hget k hk]
    intro hmem
    obtain ⟨q, hq, hqk⟩ := List.mem_map.1 hmem
    obtain ⟨hsuf', hstart', -, hstop'⟩ := hgood q hq
    have hend : q.2 <:+ line := by
      rw [hstart'] at hsuf'
      exact (List.suffix_append _ _).trans hsuf'
    have hhead := getElem?_of_suffix hend 0
    rw [Nat.add_zero, hqk, hget k hk, List.getElem?_eq_getElem hk, ← List.head?_eq_getElem?]
      at hhead
    have hno := hstop' _ hhead.symm
    rw [hchars _ (List.getElem_mem hk)] at hno
    cases hno
  · rw [List.getElem?_drop, getElem?_foldl_set, if_pos] at hc
    · obtain ⟨_, -, rfl⟩ := Option.map_eq_some_iff.1 hc
      rfl
    · refine List.mem_map.2 ⟨p, hp, ?_⟩
      omega

def line (mem : List UInt8) : List UInt8 := mem.takeWhile (· ≠ 0)

def tree (mem : List UInt8) (a : Cmd Word × List UInt8) : Cmd (List UInt8) :=
  a.1.map fun p => cstr a.2 ((line mem).length - p.1.length)

theorem skip_eq_nil : skip s = [] ↔ lex s = [] := by
  cases next s with
  | eof hlex hskip => simp [hlex, hskip]
  | tok t c r hlex hskip => simp [hlex, hskip]

variable {mem : List UInt8} {a : Cmd Word × List UInt8}

theorem parsecmd_ok :
    parsecmd mem = .ok a ↔ ∃ s', parseline (enough (line mem)) (line mem) = .ok (a.1, s') ∧
      lex s' = [] ∧ a.2 = nulterminate (line mem).length a.1 mem := by
  constructor
  · intro h
    obtain ⟨⟨c, s'⟩, hline, h⟩ := bind_ok h
    dsimp only [peek] at h
    split at h
    · cases h
    · rename_i hnil
      cases h
      exact ⟨s', hline, skip_eq_nil.1 (not_not.1 hnil), rfl⟩
  · rintro ⟨s', hline, hnil, hmem⟩
    rw [← skip_eq_nil] at hnil
    obtain ⟨c, mem'⟩ := a
    dsimp only at hline hmem
    unfold parsecmd
    rw [show mem.takeWhile (· ≠ 0) = line mem from rfl]
    dsimp only
    rw [hline]
    subst hmem
    show (if skip s' ≠ [] then _ else _) = _
    rw [if_neg (not_not_intro hnil)]

theorem parsecmd_words (h : parsecmd mem = .ok a) : ∀ p ∈ a.1.words,
      Word.Good (line mem) p ∧ cstr a.2 ((line mem).length - p.1.length) = Word.str p := by
  intro p hp
  obtain ⟨s', hline, -, hmem⟩ := parsecmd_ok.1 h
  have hgood := ((sound (line mem) _).line hline (suffix_refl _)).good
  have hstr : cstr (nulterminate (line mem).length a.1
      (line mem ++ mem.dropWhile (· ≠ 0))) ((line mem).length - p.1.length) = Word.str p :=
    cstr_nulterminate hgood (fun c hc => by simpa using List.mem_takeWhile_imp hc) hp
  rw [line, List.takeWhile_append_dropWhile] at hstr
  rw [hmem]
  exact ⟨hgood p hp, hstr⟩

theorem parsecmd_tree (h : parsecmd mem = .ok a) : tree mem a = a.1.map Word.str :=
  map_congr_words fun p hp => (parsecmd_words h p hp).2

theorem parsecmd_derives (h : parsecmd mem = .ok a) : Line (lex (line mem)) (tree mem a) := by
  obtain ⟨s', hline, hnil, -⟩ := parsecmd_ok.1 h
  obtain ⟨ts, hts, hd⟩ := ((sound (line mem) _).line hline (suffix_refl _)).derives
  rw [hnil, List.append_nil] at hts
  rw [parsecmd_tree h, hts]
  exact hd

theorem parsecmd_accepts (mem : List UInt8) :
    parsecmd mem ≠ .error .fuel ∧
    ∀ c, Line (lex (line mem)) c ↔ ∃ a, parsecmd mem = .ok a ∧ tree mem a = c := by
  have henough : parseline (enough (line mem)) (line mem) ≠ .error .fuel := by
    refine (fueled _).line ?_
    have := length_lex_le (line mem)
    rw [enough]
    omega
  refine ⟨?_, fun c => ⟨fun hd => ?_, ?_⟩⟩
  · refine bind_ne_fuel henough fun a _ => ?_
    dsimp only
    split
    · exact panic_ne_fuel _
    · exact ok_ne_fuel _
  · have hfound := (complete (enough (line mem))).line hd (List.append_nil _).symm
      (fun t ht => by cases ht)
    obtain ⟨⟨c', s'⟩, hline, rfl, hnil⟩ := hfound.resolve_left henough
    have ha : parsecmd mem = .ok (c', nulterminate (line mem).length c' mem) :=
      parsecmd_ok.2 ⟨s', hline, hnil, rfl⟩
    exact ⟨_, ha, parsecmd_tree ha⟩
  · rintro ⟨a, ha, rfl⟩
    exact parsecmd_derives ha

variable {W V : Type}

def Cmd.Fits : Cmd W → Prop
  | .exec argv => argv.length < MAXARGS
  | .redir cmd _ _ _ => cmd.Fits
  | .pipe left right => left.Fits ∧ right.Fits
  | .list left right => left.Fits ∧ right.Fits
  | .back cmd => cmd.Fits

theorem Cmd.fits_map (g : W → V) (c : Cmd W) : (c.map g).Fits ↔ c.Fits := by
  induction c with
  | exec argv => simp [Cmd.map, Cmd.Fits]
  | redir c file mode fd ih => exact ih
  | pipe l r ihl ihr => exact and_congr ihl ihr
  | list l r ihl ihr => exact and_congr ihl ihr
  | back c ih => exact ih

theorem Cmd.Fits.redirs {c : Cmd W} (hc : c.Fits) (rs : List (Redir W)) : (c.redirs rs).Fits := by
  induction rs generalizing c with
  | nil => exact hc
  | cons r rs ih => exact ih (c := .redir c r.file r.mode r.fd) hc

theorem Cmd.Fits.backs {c : Cmd W} (hc : c.Fits) (k : ℕ) : (c.backs k).Fits := by
  induction k generalizing c with
  | zero => exact hc
  | succ k ih => exact ih (c := c.back) hc

mutual

theorem Line.fits {ts : List Tok} {c : Cmd (List UInt8)} : Line ts c → c.Fits
  | .last _ _ k h => h.fits.backs k
  | .more _ _ _ _ k h h' => ⟨h.fits.backs k, h'.fits⟩

theorem Pipe.fits {ts : List Tok} {c : Cmd (List UInt8)} : Pipe ts c → c.Fits
  | .last _ _ h => h.fits
  | .more _ _ _ _ h h' => ⟨h.fits, h'.fits⟩

theorem Command.fits {ts : List Tok} {c : Cmd (List UInt8)} : Command ts c → c.Fits
  | .block _ _ _ rs h _ => h.fits.redirs rs
  | .exec _ _ ws rs rs' _ _ hlen =>
    Cmd.Fits.redirs (c := .exec ws) (Nat.lt_of_le_pred (by decide) hlen) (rs ++ rs')

end

theorem nulterminate_exact {mem : List UInt8} {a : Cmd Word × List UInt8}
    (h : parsecmd mem = .ok a) :
    (∀ p ∈ a.1.words,
      Word.Good (line mem) p ∧ cstr a.2 ((line mem).length - p.1.length) = Word.str p) ∧
    Line (lex (line mem)) (tree mem a) ∧ a.1.Fits :=
  ⟨parsecmd_words h, parsecmd_derives h, (Cmd.fits_map _ _).1 (parsecmd_derives h).fits⟩

theorem nulterminate_exact_line : ∃ a, parsecmd [97, 62, 98, 124, 40, 99, 41, 0] = .ok a ∧
    tree [97, 62, 98, 124, 40, 99, 41, 0] a =
      .pipe (.redir (.exec [[97]]) [98] 0x201 1) (.exec [[99]]) ∧
    a.2 = [97, 0, 98, 0, 40, 99, 0, 0] ∧ a.1.Fits := by
  refine ⟨_, rfl, by decide, by decide, ?_⟩
  exact (@nulterminate_exact [97, 62, 98, 124, 40, 99, 41, 0] _ rfl).2.2

end Xv6.Sh
