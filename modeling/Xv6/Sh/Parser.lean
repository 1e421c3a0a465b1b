import Mathlib.Data.List.TakeWhile
import Mathlib.Tactic.Common
import Xv6.Param

/-!
The parser of the shell, `sh.c`.

A pointer into the line is the rest of the line from there on, so `s < es`
says that the rest is not empty and `*s` is its first character, or NUL at
the end. The functions take fuel, which bounds the depth of calls and the
turns of loops. `malloc` does not fail.
-/

namespace Xv6.Sh

abbrev Ptr := List UInt8

abbrev MAXARGS : ℕ := 10

abbrev chr (c : Char) : UInt8 := c.toUInt8

def whitespace : List UInt8 := [chr ' ', chr '\t', chr '\r', chr '\n', 0x0b]
def symbols : List UInt8 := [chr '<', chr '|', chr '>', chr '&', chr ';', chr '(', chr ')']

inductive Cmd (W : Type) where
  | exec (argv : List W)
  | redir (cmd : Cmd W) (file : W) (mode : UInt32) (fd : ℕ)
  | pipe (left right : Cmd W)
  | list (left right : Cmd W)
  | back (cmd : Cmd W)
  deriving DecidableEq, Repr

structure Redir (W : Type) where
  file : W
  mode : UInt32
  fd : ℕ
  deriving DecidableEq, Repr

def Cmd.redirs {W : Type} (cmd : Cmd W) (rs : List (Redir W)) : Cmd W :=
  rs.foldl (fun c r => .redir c r.file r.mode r.fd) cmd

abbrev Word := Ptr × Ptr

inductive Panic where
  | missingFile
  | parseblock
  | missingParen
  | syntaxError
  | leftovers (s : Ptr)
  | tooManyArgs
  deriving DecidableEq, Repr

def Panic.message : Panic → String
  | .missingFile => "missing file for redirection"
  | .parseblock => "parseblock"
  | .missingParen => "syntax - missing )"
  | .syntaxError => "syntax"
  | .leftovers _ => "syntax"
  | .tooManyArgs => "too many args"

inductive Err where
  | panic (p : Panic)
  | fuel
  deriving DecidableEq, Repr

def skip (s : Ptr) : Ptr := s.dropWhile fun c => whitespace.contains c

def skipWord (s : Ptr) : Ptr := s.dropWhile fun c => !whitespace.contains c && !symbols.contains c

structure Token where
  ret : UInt8
  q : Ptr
  eq : Ptr
  ps : Ptr

def Token.word (t : Token) : Word := (t.q, t.eq)

def scan : Ptr → UInt8 × Ptr
  | [] => (0, [])
  | c :: s =>
    if c = chr '|' ∨ c = chr '(' ∨ c = chr ')' ∨ c = chr ';' ∨ c = chr '&' ∨ c = chr '<' then
      (c, s)
    else if c = chr '>' then
      if s.head? = some (chr '>') then (chr '+', s.tail) else (c, s)
    else (chr 'a', skipWord (c :: s))

def gettoken (ps : Ptr) : Token :=
  let q := skip ps
  let (ret, s) := scan q
  ⟨ret, q, s, skip s⟩

def peek (ps : Ptr) (toks : List UInt8) : Bool × Ptr :=
  let s := skip ps
  (s.head?.any toks.contains, s)

def redircmd (tok : UInt8) (file : Word) (rs : List (Redir Word)) : List (Redir Word) :=
  if tok = chr '<' then rs ++ [⟨file, O_RDONLY, 0⟩]
  else if tok = chr '>' then rs ++ [⟨file, O_WRONLY ||| O_CREATE, 1⟩]
  else if tok = chr '+' then rs ++ [⟨file, O_WRONLY ||| O_CREATE, 1⟩]
  else rs

def parseredirs : ℕ → List (Redir Word) → Ptr → Except Err (List (Redir Word) × Ptr)
  | 0, _, _ => .error .fuel
  | n + 1, rs, ps =>
    let (more, ps) := peek ps [chr '<', chr '>']
    if more then
      let tok := gettoken ps
      let file := gettoken tok.ps
      if file.ret ≠ chr 'a' then .error (.panic .missingFile)
      else parseredirs n (redircmd tok.ret file.word rs) file.ps
    else .ok (rs, ps)

def parseargs : ℕ → List Word → List (Redir Word) → Ptr →
    Except Err (List Word × List (Redir Word) × Ptr)
  | 0, _, _, _ => .error .fuel
  | n + 1, argv, rs, ps =>
    let (stop, ps) := peek ps [chr '|', chr ')', chr '&', chr ';']
    if stop then .ok (argv, rs, ps)
    else
      let tok := gettoken ps
      if tok.ret = 0 then .ok (argv, rs, tok.ps)
      else if tok.ret ≠ chr 'a' then .error (.panic .syntaxError)
      else
        let argv := argv ++ [tok.word]
        if MAXARGS ≤ argv.length then .error (.panic .tooManyArgs)
        else do
          let (rs, ps) ← parseredirs n rs tok.ps
          parseargs n argv rs ps

def parseamps : ℕ → Cmd Word → Ptr → Except Err (Cmd Word × Ptr)
  | 0, _, _ => .error .fuel
  | n + 1, cmd, ps =>
    let (more, ps) := peek ps [chr '&']
    if more then parseamps n (.back cmd) (gettoken ps).ps else .ok (cmd, ps)

mutual

def parseline : ℕ → Ptr → Except Err (Cmd Word × Ptr)
  | 0, _ => .error .fuel
  | n + 1, ps => do
      let (cmd, ps) ← parsepipe n ps
      let (cmd, ps) ← parseamps n cmd ps
      let (more, ps) := peek ps [chr ';']
      if more then do
        let (right, ps) ← parseline n (gettoken ps).ps
        .ok (.list cmd right, ps)
      else .ok (cmd, ps)

def parsepipe : ℕ → Ptr → Except Err (Cmd Word × Ptr)
  | 0, _ => .error .fuel
  | n + 1, ps => do
      let (cmd, ps) ← parseexec n ps
      let (more, ps) := peek ps [chr '|']
      if more then do
        let (right, ps) ← parsepipe n (gettoken ps).ps
        .ok (.pipe cmd right, ps)
      else .ok (cmd, ps)

def parseexec : ℕ → Ptr → Except Err (Cmd Word × Ptr)
  | 0, _ => .error .fuel
  | n + 1, ps =>
    let (block, ps) := peek ps [chr '(']
    if block then parseblock n ps
    else do
      let (rs, ps) ← parseredirs n [] ps
      let (argv, rs, ps) ← parseargs n [] rs ps
      .ok (Cmd.redirs (.exec argv) rs, ps)

def parseblock : ℕ → Ptr → Except Err (Cmd Word × Ptr)
  | 0, _ => .error .fuel
  | n + 1, ps =>
    let (opened, ps) := peek ps [chr '(']
    if opened then do
      let (cmd, ps) ← parseline n (gettoken ps).ps
      let (closed, ps) := peek ps [chr ')']
      if closed then do
        let (rs, ps) ← parseredirs n [] (gettoken ps).ps
        .ok (cmd.redirs rs, ps)
      else .error (.panic .missingParen)
    else .error (.panic .parseblock)

end

def nulterminate (len : ℕ) : Cmd Word → List UInt8 → List UInt8
  | .exec argv, mem => argv.foldl (fun m w => m.set (len - w.2.length) 0) mem
  | .redir cmd file _ _, mem => (nulterminate len cmd mem).set (len - file.2.length) 0
  | .pipe left right, mem => nulterminate len right (nulterminate len left mem)
  | .list left right, mem => nulterminate len right (nulterminate len left mem)
  | .back cmd, mem => nulterminate len cmd mem

def enough (s : Ptr) : ℕ := 4 * s.length + 4

def parsecmd (mem : List UInt8) : Except Err (Cmd Word × List UInt8) := do
  let line := mem.takeWhile (· ≠ 0)
  let (cmd, ps) ← parseline (enough line) line
  let (_, ps) := peek ps []
  if ps ≠ [] then .error (.panic (.leftovers ps))
  else .ok (cmd, nulterminate line.length cmd mem)

end Xv6.Sh
