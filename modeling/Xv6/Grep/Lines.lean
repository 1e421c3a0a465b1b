import Xv6.Grep.Match

/-!
The loop of `grep` over its input (`grep.c`).

`read` may return fewer bytes than it was asked for, so a line can arrive in
several pieces. The buffer keeps what follows its last newline for the next
turn. If it holds no newline at all, the source sets `m` to 0 and the piece is
lost, so the output is right only if every read brings the end of a line, up to
the last one.
-/

namespace Xv6.Grep

open List (append_assoc cons_append length_append mem_append mem_cons not_mem_nil)

def BUFSIZE : ℕ := 1024

abbrev newline : UInt8 := chr '\n'

def strchr : List UInt8 → Option (List UInt8 × List UInt8)
  | [] => none
  | c :: p =>
    if c = 0 then none
    else if c = newline then some ([], p)
    else (strchr p).map fun x => (c :: x.1, x.2)

def lineLoop (pattern : List UInt8) : ℕ → List UInt8 → List UInt8 × List UInt8
  | 0, p => ([], p)
  | k + 1, p =>
    match strchr p with
    | none => ([], p)
    | some (line, q) =>
      let r := lineLoop pattern k q
      ((if «match» pattern line then line ++ [newline] else []) ++ r.1, r.2)

structure Turn where
  chunk : List UInt8
  rest : List UInt8
  out : List UInt8

def turns (pattern : List UInt8) (cut : ℕ → ℕ) : ℕ → ℕ → List UInt8 → List UInt8 → List Turn
  | 0, _, _, _ => []
  | k + 1, t, buf, input =>
    let n := min (max (cut t) 1) (BUFSIZE - buf.length - 1)
    if input.take n = [] then []
    else
      let p := buf ++ input.take n
      let r := lineLoop pattern p.length p
      let kept := if r.2.length = p.length then [] else r.2
      ⟨input.take n, input.drop n, r.1⟩ :: turns pattern cut k (t + 1) kept (input.drop n)

def reads (pattern : List UInt8) (cut : ℕ → ℕ) (input : List UInt8) : List Turn :=
  turns pattern cut input.length 0 [] input

def grep (pattern : List UInt8) (cut : ℕ → ℕ) (input : List UInt8) : List UInt8 :=
  (reads pattern cut input).flatMap (·.out)

def lines (input : List UInt8) : List (List UInt8) := (input.splitOn newline).dropLast

def matching (pattern input : List UInt8) : List UInt8 :=
  ((lines input).filter («match» pattern)).flatMap (· ++ [newline])

variable {pattern p q line buf input : List UInt8}

theorem splitOn_newline (p q : List UInt8) :
    (p ++ newline :: q).splitOn newline = p.splitOn newline ++ q.splitOn newline :=
  List.splitOnP_append_cons p q (by simp)

theorem splitOn_of_notMem (h : newline ∉ p) : p.splitOn newline = [p] :=
  List.splitOnP_eq_singleton fun _ hx => beq_false_of_ne fun he => h (he ▸ hx)

theorem lines_append (p q : List UInt8) :
    lines (p ++ newline :: q) = p.splitOn newline ++ lines q := by
  rw [lines, splitOn_newline]
  exact List.dropLast_append_of_ne_nil (List.splitOnP_ne_nil _ _)

theorem matching_of_notMem (h : newline ∉ p) : matching pattern p = [] := by
  simp [matching, lines, splitOn_of_notMem h]

theorem matching_line (h : newline ∉ line) :
    matching pattern (line ++ newline :: q) =
      (if «match» pattern line then line ++ [newline] else []) ++ matching pattern q := by
  rw [matching, lines_append, splitOn_of_notMem h, List.singleton_append, List.filter_cons,
    matching]
  split <;> simp

theorem strchr_some (h : strchr p = some (line, q)) :
    p = line ++ newline :: q ∧ newline ∉ line := by
  induction p generalizing line with
  | nil => cases h
  | cons c p ih =>
    unfold strchr at h
    split at h
    · cases h
    split at h
    · rename_i hc
      cases h
      exact ⟨by rw [hc, List.nil_append], not_mem_nil⟩
    rename_i hc
    obtain ⟨⟨u, v⟩, hx, he⟩ := Option.map_eq_some_iff.1 h
    cases he
    obtain ⟨rfl, hu⟩ := ih hx
    exact ⟨rfl, List.not_mem_cons_of_ne_of_not_mem (.symm hc) hu⟩

theorem strchr_none (h0 : 0 ∉ p) (h : strchr p = none) : newline ∉ p := by
  induction p with
  | nil => exact not_mem_nil
  | cons c p ih =>
    rw [mem_cons, not_or] at h0
    rw [strchr, if_neg (Ne.symm h0.1)] at h
    split at h
    · cases h
    · rename_i hn
      exact List.not_mem_cons_of_ne_of_not_mem (.symm hn) (ih h0.2 (Option.map_eq_none_iff.1 h))

theorem lineLoop_spec (pattern more : List UInt8) {k : ℕ} (h0 : 0 ∉ p) (hk : p.length ≤ k) :
    newline ∉ (lineLoop pattern k p).2 ∧
    (lineLoop pattern k p).1 ++ matching pattern ((lineLoop pattern k p).2 ++ more) =
      matching pattern (p ++ more) ∧
    ((newline ∉ p ∧ lineLoop pattern k p = ([], p)) ∨
      ∃ front, p = front ++ newline :: (lineLoop pattern k p).2) := by
  induction k generalizing p with
  | zero =>
    obtain rfl := List.eq_nil_of_length_eq_zero (Nat.le_zero.1 hk)
    exact ⟨not_mem_nil, rfl, .inl ⟨not_mem_nil, rfl⟩⟩
  | succ k ih =>
    cases hs : strchr p with
    | none =>
      have hn := strchr_none h0 hs
      rw [lineLoop, hs]
      exact ⟨hn, rfl, .inl ⟨hn, rfl⟩⟩
    | some x =>
      obtain ⟨line, q⟩ := x
      obtain ⟨rfl, hline⟩ := strchr_some hs
      simp only [mem_append, mem_cons, not_or] at h0
      have hlen : q.length ≤ k := by
        simp only [length_append, List.length_cons] at hk
        omega
      obtain ⟨hn, hout, hq⟩ := ih h0.2.2 hlen
      rw [lineLoop, hs]
      dsimp only
      refine ⟨hn, ?_, .inr ?_⟩
      · rw [append_assoc, hout, append_assoc, cons_append, matching_line hline]
      · rcases hq with ⟨-, hq⟩ | ⟨front, hq⟩
        · exact ⟨line, by rw [hq]⟩
        · exact ⟨line ++ newline :: front, by rw [append_assoc, cons_append, ← hq]⟩

theorem notMem_of_full (hbuf : newline ∉ buf) (hfull : BUFSIZE - 1 ≤ buf.length)
    (hlines : ∀ line ∈ lines (buf ++ input), line.length + 1 < BUFSIZE - 1) : newline ∉ input := by
  intro hmem
  obtain ⟨u, v, rfl, hu⟩ := List.eq_append_cons_of_mem hmem
  have hline : buf ++ u ∈ lines (buf ++ (u ++ newline :: v)) := by
    rw [← append_assoc, lines_append, splitOn_of_notMem (by simp [hbuf, hu])]
    exact List.mem_append_left _ (List.mem_singleton_self _)
  have := hlines _ hline
  simp only [length_append] at this
  omega

theorem turns_spec {cut : ℕ → ℕ} {k t : ℕ} (h0 : 0 ∉ buf ++ input) (hbuf : newline ∉ buf)
    (hk : input.length ≤ k) (hlines : ∀ line ∈ lines (buf ++ input), line.length + 1 < BUFSIZE - 1)
    (hcut : ∀ x ∈ turns pattern cut k t buf input, newline ∈ x.chunk ∨ newline ∉ x.rest) :
    (turns pattern cut k t buf input).flatMap (·.out) = matching pattern (buf ++ input) := by
  induction k generalizing t buf input with
  | zero =>
    obtain rfl := List.eq_nil_of_length_eq_zero (Nat.le_zero.1 hk)
    rw [List.append_nil, matching_of_notMem hbuf]
    rfl
  | succ k ih =>
    unfold turns at hcut ⊢
    generalize hn : min (max (cut t) 1) (BUFSIZE - buf.length - 1) = n at hcut ⊢
    dsimp only at hcut ⊢
    split
    · -- The input is at its end, or there is no room.
      rename_i hnone
      rw [matching_of_notMem, List.flatMap_nil]
      rw [mem_append, not_or]
      refine ⟨hbuf, ?_⟩
      rcases List.take_eq_nil_iff.1 hnone with hz | rfl
      · exact notMem_of_full hbuf (by omega) hlines
      · exact not_mem_nil
    · rename_i hsome
      rw [if_neg hsome] at hcut
      obtain ⟨hhead, hcut⟩ := List.forall_mem_cons.1 hcut
      have hsplit : buf ++ input.take n ++ input.drop n = buf ++ input := by
        rw [append_assoc, List.take_append_drop]
      rw [← hsplit] at h0 hlines ⊢
      generalize hp : buf ++ input.take n = p at h0 hlines hcut ⊢
      have hlen : (input.drop n).length ≤ k := by
        have hne := not_or.1 (mt List.take_eq_nil_iff.2 hsome)
        have := List.length_pos_iff.2 hne.2
        rw [List.length_drop]
        omega
      rw [mem_append, not_or] at h0
      obtain ⟨hrest, hout, hshape⟩ := lineLoop_spec pattern (input.drop n) h0.1 (Nat.le_refl _)
      rw [List.flatMap_cons, ← hout]
      rcases hshape with ⟨hno, hloop⟩ | ⟨front, hfront⟩
      · -- The piece is lost, but no line ends after it.
        have hchunk : newline ∉ input.take n := fun hc => hno (hp ▸ List.mem_append_right buf hc)
        have hdrop : newline ∉ input.drop n := hhead.resolve_left hchunk
        rw [hloop, if_pos rfl] at hcut ⊢
        rw [ih h0.2 not_mem_nil hlen ?_ hcut]
        · simp only [List.nil_append, matching_of_notMem hdrop]
          rw [matching_of_notMem (by simp [hno, hdrop])]
        · simp [lines, splitOn_of_notMem hdrop]
      · generalize lineLoop pattern p.length p = r at hrest hout hfront hcut ⊢
        subst hfront
        simp only [mem_append, mem_cons, not_or] at h0
        have hne : r.2.length ≠ (front ++ newline :: r.2).length := by
          simp only [length_append, List.length_cons]
          omega
        rw [if_neg hne] at hcut ⊢
        refine congrArg _ (ih (by simp [h0]) hrest hlen (fun line hline => hlines line ?_) hcut)
        rw [append_assoc, cons_append, lines_append]
        exact List.mem_append_right _ hline

/-! ### What the reads bring -/

theorem lineLoop_snd (pattern pattern' : List UInt8) (k : ℕ) (p : List UInt8) :
    (lineLoop pattern k p).2 = (lineLoop pattern' k p).2 := by
  induction k generalizing p with
  | zero => rfl
  | succ k ih =>
    simp only [lineLoop]
    cases strchr p with
    | none => rfl
    | some x => exact ih x.2

def Turn.piece (x : Turn) : List UInt8 × List UInt8 := (x.chunk, x.rest)

theorem turns_pieces (pattern pattern' : List UInt8) (cut : ℕ → ℕ) (k t : ℕ)
    (buf input : List UInt8) :
    (turns pattern cut k t buf input).map Turn.piece =
      (turns pattern' cut k t buf input).map Turn.piece := by
  induction k generalizing t buf input with
  | zero => rfl
  | succ k ih =>
    unfold turns
    dsimp only
    split
    · rfl
    · rw [lineLoop_snd pattern pattern', List.map_cons, List.map_cons]
      exact congrArg _ (ih _ _ _)

def pieces (cut : ℕ → ℕ) (input : List UInt8) : List (List UInt8 × List UInt8) :=
  (reads [] cut input).map Turn.piece

theorem mem_pieces {cut : ℕ → ℕ} {x : Turn} (h : x ∈ reads pattern cut input) :
    (x.chunk, x.rest) ∈ pieces cut input := by
  rw [pieces, reads, turns_pieces [] pattern]
  exact List.mem_map_of_mem (f := Turn.piece) h

/-! ### A piece that is lost

The empty pattern matches every line, so with it the output is as long as the
input up to the last newline, unless a piece of a line has been lost. -/

theorem match_nil (text : List UInt8) : «match» [] text = true := by
  cases text <;> rfl

theorem length_matching_nil (hp : newline ∉ p) (hq : newline ∈ q) :
    (matching [] (p ++ q)).length = p.length + (matching [] q).length := by
  obtain ⟨u, v, rfl, hu⟩ := List.eq_append_cons_of_mem hq
  rw [← append_assoc, matching_line (by simp [hp, hu]), matching_line hu, match_nil, match_nil]
  simp only [if_true, length_append]
  omega

theorem length_matching_le (hp : newline ∉ p) :
    (matching [] q).length ≤ (matching [] (p ++ q)).length := by
  by_cases hq : newline ∈ q
  · rw [length_matching_nil hp hq]
    exact Nat.le_add_left ..
  · simp [matching_of_notMem hq]

theorem length_turns {cut : ℕ → ℕ} {k t : ℕ} (h0 : 0 ∉ buf ++ input) (hbuf : newline ∉ buf) :
    ((turns [] cut k t buf input).flatMap (·.out)).length ≤ (matching [] (buf ++ input)).length ∧
    ((∃ x ∈ turns [] cut k t buf input, newline ∉ x.chunk ∧ newline ∈ x.rest) →
      ((turns [] cut k t buf input).flatMap (·.out)).length <
        (matching [] (buf ++ input)).length) := by
  induction k generalizing t buf input with
  | zero => exact ⟨Nat.zero_le _, fun ⟨x, hx, _⟩ => absurd hx not_mem_nil⟩
  | succ k ih =>
    unfold turns
    generalize min (max (cut t) 1) (BUFSIZE - buf.length - 1) = n
    dsimp only
    split
    · exact ⟨Nat.zero_le _, fun ⟨x, hx, _⟩ => absurd hx not_mem_nil⟩
    rename_i hsome
    have hsplit : buf ++ input = buf ++ input.take n ++ input.drop n := by
      rw [append_assoc, List.take_append_drop]
    rw [hsplit] at h0 ⊢
    rw [mem_append, not_or] at h0
    obtain ⟨hrest, hout, hshape⟩ := lineLoop_spec [] (input.drop n) h0.1 (Nat.le_refl _)
    generalize hp : buf ++ input.take n = p at h0 hout hshape hrest ⊢
    rw [List.flatMap_cons, ← hout, length_append, length_append]
    dsimp only
    rcases hshape with ⟨hno, hloop⟩ | ⟨front, hfront⟩
    · -- The piece `p` is lost.
      rw [hloop, if_pos rfl]
      obtain ⟨hle, hlt⟩ := ih (t := t + 1)
        (show 0 ∉ [] ++ input.drop n from h0.2) not_mem_nil
      rw [List.nil_append] at hle hlt
      have hmore := length_matching_le hno (q := input.drop n)
      refine ⟨by simpa using hle.trans hmore, ?_⟩
      rintro ⟨x, hx, hchunk, hlater⟩
      rcases mem_cons.1 hx with rfl | hx
      · have hpos : 0 < p.length := by
          rw [← hp, length_append]
          exact Nat.add_pos_right _ (List.length_pos_iff.2 hsome)
        have hall := length_matching_nil hno (q := input.drop n) hlater
        simp only [List.length_nil]
        omega
      · have := hlt ⟨x, hx, hchunk, hlater⟩
        simp only [List.length_nil]
        omega
    · generalize lineLoop [] p.length p = r at hrest hfront ⊢
      have hne : r.2.length ≠ p.length := by
        rw [hfront]
        simp only [length_append, List.length_cons]
        omega
      rw [if_neg hne]
      obtain ⟨hle, hlt⟩ := ih (t := t + 1)
        (show 0 ∉ r.2 ++ input.drop n by rw [hfront] at h0; simp_all) hrest
      refine ⟨by omega, ?_⟩
      rintro ⟨x, hx, hchunk, hlater⟩
      rcases mem_cons.1 hx with rfl | hx
      · -- This read brought a newline, for the buffer held none before it.
        refine absurd ?_ hchunk
        have hmem : newline ∈ buf ++ input.take n := by
          rw [hp, hfront]
          simp
        exact (mem_append.1 hmem).resolve_left hbuf
      · have := hlt ⟨x, hx, hchunk, hlater⟩
        omega

theorem grep_exact (input : List UInt8) (cut : ℕ → ℕ) (h0 : 0 ∉ input)
    (hlines : ∀ line ∈ lines input, line.length + 1 < BUFSIZE - 1) :
    (∀ pattern, grep pattern cut input = matching pattern input) ↔
      ∀ x ∈ pieces cut input, newline ∈ x.1 ∨ newline ∉ x.2 := by
  constructor
  · intro h x hx
    obtain ⟨y, hy, rfl⟩ := List.mem_map.1 hx
    by_contra hbad
    rw [not_or, not_not] at hbad
    have hlt := (length_turns h0 not_mem_nil).2 ⟨y, hy, hbad⟩
    rw [List.nil_append, ← h []] at hlt
    exact Nat.lt_irrefl _ hlt
  · intro h pattern
    exact turns_spec h0 not_mem_nil (Nat.le_refl _) hlines fun x hx => h _ (mem_pieces hx)

theorem grep_exact_carried :
    pieces (fun _ => 4) [chr 'a', chr 'b', newline, chr 'c', chr 'd', newline] =
      [([chr 'a', chr 'b', newline, chr 'c'], [chr 'd', newline]), ([chr 'd', newline], [])] ∧
    grep [chr 'c'] (fun _ => 4) [chr 'a', chr 'b', newline, chr 'c', chr 'd', newline] =
      [chr 'c', chr 'd', newline] := by
  refine ⟨by decide, ?_⟩
  exact ((grep_exact _ _ (by decide) (by decide)).2 (by decide) _).trans (by decide)

theorem grep_loses_line :
    ∃ (pattern input : List UInt8) (cut : ℕ → ℕ), 0 ∉ input ∧
      (∀ line ∈ lines input, line.length + 1 < BUFSIZE - 1) ∧
      grep pattern cut input = [] ∧ matching pattern input = input ∧ input ≠ [] :=
  ⟨[chr 'a'], [chr 'a', chr 'b', chr 'c', newline], fun _ => 2, by decide, by decide, by decide,
    by decide, by decide⟩

end Xv6.Grep
