import Xv6.Sh.Parser

/-!
The grammar of the shell.

The parser works on characters, but `peek` and `gettoken` let it see only
the tokens of the rest of the line. In these terms it is a parser with one
token of lookahead: what it returns is the tree of a derivation, and if
there is a derivation it finds it.
-/

namespace Xv6.Sh

/-! ### Tokens -/

inductive Tok where
  | pipe | lparen | rparen | semi | amp | lt | gt | gtgt
  | word (w : List UInt8)
  deriving DecidableEq, Repr

def Tok.ofChar (c : UInt8) : Option Tok :=
  if c = chr '|' then some .pipe
  else if c = chr '(' then some .lparen
  else if c = chr ')' then some .rparen
  else if c = chr ';' then some .semi
  else if c = chr '&' then some .amp
  else if c = chr '<' then some .lt
  else none

def wordChar (c : UInt8) : Bool := !whitespace.contains c && !symbols.contains c

def lex : List UInt8 → List Tok
  | [] => []
  | c :: s =>
    if whitespace.contains c then lex s
    else if c = chr '>' then
      if s.head? = some (chr '>') then .gtgt :: lex s.tail else .gt :: lex s
    else match Tok.ofChar c with
      | some t => t :: lex s
      | none => .word (c :: s.takeWhile wordChar) :: lex (s.dropWhile wordChar)
termination_by s => s.length
decreasing_by
  all_goals
    simp only [List.length_cons, List.length_tail]
    first
      | omega
      | exact Nat.lt_succ_of_le (List.dropWhile_sublist _).length_le

theorem lex_skip (s : List UInt8) : lex (skip s) = lex s := by
  induction s with
  | nil => rfl
  | cons c s ih =>
    by_cases hc : whitespace.contains c = true
    · have hskip : skip (c :: s) = skip s := List.dropWhile_cons_of_pos hc
      rw [hskip, ih, lex, if_pos hc]
    · have hskip : skip (c :: s) = c :: s := List.dropWhile_cons_of_neg hc
      rw [hskip]

def Tok.code : Tok → UInt8
  | .pipe => chr '|'
  | .lparen => chr '('
  | .rparen => chr ')'
  | .semi => chr ';'
  | .amp => chr '&'
  | .lt => chr '<'
  | .gt => chr '>'
  | .gtgt => chr '+'
  | .word _ => chr 'a'

def Tok.first : Tok → Option UInt8
  | .gtgt => some (chr '>')
  | .word _ => none
  | t => some t.code

structure Word.In (l : List UInt8) (p : Word) (w : List UInt8) : Prop where
  suffix : p.1 <:+ l
  start : p.1 = w ++ p.2
  chars : ∀ c ∈ w, wordChar c = true
  stop : ∀ c, p.2.head? = some c → wordChar c = false

variable {c : UInt8}

theorem skip_cons {s r : List UInt8} (h : skip s = c :: r) : whitespace.contains c = false := by
  have hhead := List.head?_dropWhile_not (fun c => whitespace.contains c) s
  rw [← skip, h] at hhead
  simpa using hhead

theorem skip_suffix (s : List UInt8) : skip s <:+ s := List.dropWhile_suffix _

theorem ofChar_cases (c : UInt8) :
    (∃ t, Tok.ofChar c = some t ∧ t.code = c ∧ t.first = some c ∧ ∀ w, t ≠ .word w) ∧
        (c = chr '|' ∨ c = chr '(' ∨ c = chr ')' ∨ c = chr ';' ∨ c = chr '&' ∨ c = chr '<') ∨
      Tok.ofChar c = none ∧
        ¬ (c = chr '|' ∨ c = chr '(' ∨ c = chr ')' ∨ c = chr ';' ∨ c = chr '&' ∨ c = chr '<') := by
  by_cases h : c = chr '|' ∨ c = chr '(' ∨ c = chr ')' ∨ c = chr ';' ∨ c = chr '&' ∨ c = chr '<'
  · left
    refine ⟨?_, h⟩
    rcases h with rfl | rfl | rfl | rfl | rfl | rfl
    · exact ⟨.pipe, rfl, rfl, rfl, nofun⟩
    · exact ⟨.lparen, rfl, rfl, rfl, nofun⟩
    · exact ⟨.rparen, rfl, rfl, rfl, nofun⟩
    · exact ⟨.semi, rfl, rfl, rfl, nofun⟩
    · exact ⟨.amp, rfl, rfl, rfl, nofun⟩
    · exact ⟨.lt, rfl, rfl, rfl, nofun⟩
  · right
    simp only [not_or] at h
    simp only [Tok.ofChar, h, if_false, or_self, not_false_eq_true, and_self]

theorem wordChar_of_not (hws : whitespace.contains c = false) (hgt : c ≠ chr '>')
    (h : ¬ (c = chr '|' ∨ c = chr '(' ∨ c = chr ')' ∨ c = chr ';' ∨ c = chr '&' ∨ c = chr '<')) :
    wordChar c = true := by
  simp only [not_or] at h
  have hsym : symbols.contains c = false := by
    simp only [symbols, List.contains_eq_mem, List.mem_cons, List.not_mem_nil]
    simp [h, hgt]
  rw [wordChar, hws, hsym]
  rfl

theorem word_in {r : List UInt8} (hc : wordChar c = true) :
    Word.In (c :: r) (c :: r, skipWord (c :: r)) (c :: r.takeWhile wordChar) := by
  have hskip : skipWord (c :: r) = r.dropWhile wordChar := List.dropWhile_cons_of_pos hc
  rw [hskip]
  refine ⟨List.suffix_refl _, ?_, fun d hd => ?_, fun d hd => ?_⟩
  · rw [List.cons_append, List.takeWhile_append_dropWhile]
  · rcases List.mem_cons.1 hd with rfl | hd
    · exact hc
    · exact List.mem_takeWhile_imp hd
  · have hhead := List.head?_dropWhile_not wordChar r
    change (r.dropWhile wordChar).head? = some d at hd
    rw [hd] at hhead
    simpa using hhead

theorem scan_lex {r : List UInt8} (hws : whitespace.contains c = false) :
    ∃ t, lex (c :: r) = t :: lex (scan (c :: r)).2 ∧ (scan (c :: r)).1 = t.code ∧
      (t.first = some c ∨ t.first = none ∧ wordChar c = true) ∧ (scan (c :: r)).2 <:+ r ∧
      ∀ w, t = .word w → Word.In (c :: r) (c :: r, (scan (c :: r)).2) w := by
  rw [lex, if_neg (by rw [hws]; exact Bool.false_ne_true), scan]
  rcases ofChar_cases c with ⟨⟨t, ht, hcode, hfirst, hword⟩, hsym⟩ | ⟨hnone, hsym⟩
  · have hgt : c ≠ chr '>' := by
      rintro rfl
      revert hsym
      decide
    rw [if_neg hgt, ht, if_pos hsym]
    exact ⟨t, rfl, hcode.symm, .inl hfirst, List.suffix_refl r, fun w hw => absurd hw (hword w)⟩
  · rw [if_neg hsym, hnone]
    by_cases hgt : c = chr '>'
    · subst hgt
      rw [if_pos rfl, if_pos rfl]
      by_cases hr : r.head? = some (chr '>')
      · rw [if_pos hr, if_pos hr]
        exact ⟨.gtgt, rfl, rfl, .inl rfl, List.tail_suffix r, nofun⟩
      · rw [if_neg hr, if_neg hr]
        exact ⟨.gt, rfl, rfl, .inl rfl, List.suffix_refl r, nofun⟩
    · rw [if_neg hgt, if_neg hgt]
      have hc := wordChar_of_not hws hgt hsym
      have hin := word_in (r := r) hc
      have hskip : skipWord (c :: r) = r.dropWhile wordChar := List.dropWhile_cons_of_pos hc
      refine ⟨.word (c :: r.takeWhile wordChar), ?_, rfl, .inr ⟨rfl, hc⟩, ?_, ?_⟩
      · rw [hskip]
      · rw [hskip]
        exact List.dropWhile_suffix _
      · rintro w ⟨⟩
        exact hin

inductive Next (s : List UInt8) : Prop
  | eof (hlex : lex s = []) (hskip : skip s = []) (hret : (gettoken s).ret = 0)
      (hps : (gettoken s).ps = [])
  | tok (t : Tok) (c : UInt8) (r : List UInt8) (hlex : lex s = t :: lex (gettoken s).ps)
      (hskip : skip s = c :: r) (hfirst : t.first = some c ∨ t.first = none ∧ wordChar c = true)
      (hret : (gettoken s).ret = t.code) (hps : (gettoken s).ps <:+ s)
      (hword : ∀ w, t = .word w → Word.In s (gettoken s).word w)

theorem next (s : List UInt8) : Next s := by
  have hlex := lex_skip s
  have hsuf := skip_suffix s
  have htok : gettoken s =
    ⟨(scan (skip s)).1, skip s, (scan (skip s)).2, skip (scan (skip s)).2⟩ := rfl
  cases hq : skip s with
  | nil =>
    rw [hq] at hlex htok
    exact .eof (by rw [← hlex, lex]) hq (by rw [htok]; rfl) (by rw [htok]; rfl)
  | cons c r =>
    rw [hq] at hlex htok hsuf
    obtain ⟨t, ht, hret, hfirst, hr, hword⟩ := scan_lex (r := r) (skip_cons hq)
    refine .tok t c r ?_ hq hfirst ?_ ?_ fun w hw => ?_
    · rw [← hlex, ht, htok, lex_skip]
    · rw [htok, hret]
    · rw [htok]
      exact (skip_suffix _).trans (hr.trans ((List.suffix_cons c r).trans hsuf))
    · obtain ⟨hin, hstart, hchars, hstop⟩ := hword w hw
      rw [htok]
      exact ⟨hin.trans hsuf, hstart, hchars, hstop⟩

def looks (toks : List UInt8) (ts : List Tok) : Bool :=
  ts.head?.any fun t => t.first.any toks.contains

theorem peek_eq {toks : List UInt8} (h : toks ⊆ symbols) (s : List UInt8) :
    peek s toks = (looks toks (lex s), skip s) := by
  refine Prod.ext ?_ rfl
  cases next s with
  | eof hlex hskip => simp [peek, looks, hlex, hskip]
  | tok t c r hlex hskip hfirst =>
    rcases hfirst with hfirst | ⟨hfirst, hc⟩
    · simp [peek, looks, hlex, hskip, hfirst]
    have hnot : c ∉ toks := by
      intro hmem
      simp [wordChar] at hc
      exact hc.2 (h hmem)
    simp [peek, looks, hlex, hskip, hfirst, hnot]

/-! ### The grammar -/

def Tok.redir : Tok → Option (UInt32 × ℕ)
  | .lt => some (O_RDONLY, 0)
  | .gt => some (O_WRONLY ||| O_CREATE, 1)
  | .gtgt => some (O_WRONLY ||| O_CREATE, 1)
  | _ => none

inductive Redirs : List Tok → List (Redir (List UInt8)) → Prop
  | nil : Redirs [] []
  | cons (t : Tok) (w : List UInt8) (mode : UInt32) (fd : ℕ) (ts : List Tok)
      (rs : List (Redir (List UInt8)))
      (ht : t.redir = some (mode, fd)) (h : Redirs ts rs) :
      Redirs (t :: .word w :: ts) (⟨w, mode, fd⟩ :: rs)

inductive Args : List Tok → List (List UInt8) → List (Redir (List UInt8)) → Prop
  | nil : Args [] [] []
  | cons (w : List UInt8) (ts us : List Tok) (ws : List (List UInt8))
      (rs rs' : List (Redir (List UInt8))) (h : Redirs ts rs) (h' : Args us ws rs') :
      Args (.word w :: (ts ++ us)) (w :: ws) (rs ++ rs')

def Cmd.backs {W : Type} (c : Cmd W) : ℕ → Cmd W
  | 0 => c
  | k + 1 => (c.back).backs k

mutual

inductive Line : List Tok → Cmd (List UInt8) → Prop
  | last (ts : List Tok) (c : Cmd (List UInt8)) (k : ℕ) (h : Pipe ts c) :
      Line (ts ++ List.replicate k .amp) (c.backs k)
  | more (ts us : List Tok) (c d : Cmd (List UInt8)) (k : ℕ) (h : Pipe ts c) (h' : Line us d) :
      Line (ts ++ List.replicate k .amp ++ .semi :: us) (.list (c.backs k) d)

inductive Pipe : List Tok → Cmd (List UInt8) → Prop
  | last (ts : List Tok) (c : Cmd (List UInt8)) (h : Command ts c) : Pipe ts c
  | more (ts us : List Tok) (c d : Cmd (List UInt8)) (h : Command ts c) (h' : Pipe us d) :
      Pipe (ts ++ .pipe :: us) (.pipe c d)

inductive Command : List Tok → Cmd (List UInt8) → Prop
  | block (ts us : List Tok) (c : Cmd (List UInt8)) (rs : List (Redir (List UInt8)))
      (h : Line ts c) (h' : Redirs us rs) : Command (.lparen :: (ts ++ .rparen :: us)) (c.redirs rs)
  | exec (ts us : List Tok) (ws : List (List UInt8)) (rs rs' : List (Redir (List UInt8)))
      (h : Redirs ts rs) (h' : Args us ws rs') (hlen : ws.length ≤ MAXARGS - 1) :
      Command (ts ++ us) (Cmd.redirs (.exec ws) (rs ++ rs'))

end

end Xv6.Sh
