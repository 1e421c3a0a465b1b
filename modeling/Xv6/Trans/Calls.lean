import Xv6.Trans.Ops

/-!
The system calls of `sysfile.c`, with `exec` and `exit`.

A path is `none` when the call cannot fetch its arguments. Of the arguments
of `exec` only the number is kept, and of `exec` itself what it does until
the new image is loaded and whether it gives up after that.
-/

namespace Xv6.Trans

open Lib Files Function

inductive Call where
  | open (path : Option Sys.Path) (omode : UInt32)
  | close (fd : Int)
  | read (fd n : Int)
  | write (fd n : Int)
  | link (old new : Option Sys.Path)
  | unlink (path : Option Sys.Path)
  | mkdir (path : Option Sys.Path)
  | mknod (path : Option Sys.Path)
  | chdir (path : Option Sys.Path)
  | exec (path : Option Sys.Path) (argc : ℕ)
  | exit
  | pipe
  | dup (fd : Int)
  | fstat (fd : Int)

def withFd (fd : Int) (k : Fin NOFILE → Fin NFILE → Op Int) : Op Int := do
  match ← .read fun s => s.ofile.argfd fd with
  | none => pure (-1)
  | some (d, f) => k d f

def sysDup (fd : Int) : Op Int :=
  withFd fd fun _ f => do
    match ← fdalloc f with
    | none => pure (-1)
    | some d => do
        filedup f
        pure d.val

def sysRead (fd n : Int) : Op Int :=
  withFd fd fun _ f => do
    if n < 0 then pure (-1)
    else if ← check then pure (-1)
    else fileread f n.toNat

def sysWrite (fd n : Int) : Op Int :=
  withFd fd fun _ f => do
    if n < 0 then pure (-1)
    else if ← check then pure (-1)
    else filewrite f n.toNat

def sysClose (fd : Int) : Op Int :=
  withFd fd fun d f => do
    .modify fun s => { s with ofile := update s.ofile d none }
    fileclose f
    pure 0

def sysFstat (fd : Int) : Op Int :=
  withFd fd fun _ f => do
    if ← check then pure (-1) else filestat f

def endFail : Op Int := do
  endOp
  pure (-1)

def linkBad (ip : ℕ) : Op Int := do
  ilock ip
  iupdate
  iunlockput ip
  endFail

def sysLink (old new : Option Sys.Path) : Op Int :=
  match old, new with
  | some old, some new => do
      beginOp
      match ← namei old with
      | none => endFail
      | some ip => do
          ilock ip
          if ← check then
            iunlockput ip
            endFail
          else
            iupdate
            iunlock ip
            match ← nameiparent new with
            | none => linkBad ip
            | some dp => do
                ilock dp
                let r ← dirlink dp
                iunlockput dp
                if r < 0 then linkBad ip
                else
                  iput ip
                  endOp
                  pure 0
  | _, _ => pure (-1)

def unlinkBad (dp : ℕ) : Op Int := do
  iunlockput dp
  endFail

def unlinkEntry (dp off ip : ℕ) (isDir : Bool) : Op Int := do
  let r ← writei dp off 16
  if r ≠ 16 then .panic .unlinkWritei
  else
    (if isDir then iupdate else pure ())
    iunlockput dp
    iupdate
    iunlockput ip
    endOp
    pure 0

def isdirempty (dp : ℕ) : Op Bool := do
  let n ← .read fun s => s.entriesFrom dp 32
  let r ← scanDir .isdirempty dp n 32
  pure r.isNone

def unlinkInode (dp off ip : ℕ) : Op Int := do
  mayPanic .unlinkNlink
  if ← check then
    if ← isdirempty ip then unlinkEntry dp off ip true
    else
      iunlockput ip
      unlinkBad dp
  else unlinkEntry dp off ip false

def sysUnlink (path : Option Sys.Path) : Op Int :=
  match path with
  | none => pure (-1)
  | some path => do
      beginOp
      match ← nameiparent path with
      | none => endFail
      | some dp => do
          ilock dp
          if ← check then unlinkBad dp
          else
            match ← dirlookup dp with
            | none => unlinkBad dp
            | some (ip, off) => do
                ilock ip
                unlinkInode dp off ip

def createDots (ip : ℕ) : Op Unit := do
  iupdate
  let r ← dirlink ip
  if r < 0 then .panic .createDots
  else
    let r ← dirlink ip
    if r < 0 then .panic .createDots else pure ()

def createNew (dp : ℕ) (type : Sys.IType) : Op (Option ℕ) := do
  let ip ← ialloc
  ilock ip
  iupdate
  (if type = .dir then createDots ip else pure ())
  let r ← dirlink dp
  if r < 0 then .panic .createDirlink
  else
    iunlockput dp
    pure (some ip)

def create (path : Sys.Path) (type : Sys.IType) : Op (Option ℕ) := do
  match ← nameiparent path with
  | none => pure none
  | some dp => do
      ilock dp
      match ← dirlookup dp with
      | some (ip, _) => do
          iunlockput dp
          ilock ip
          let isFile ← check
          if type = .file ∧ isFile = true then pure (some ip)
          else
            iunlockput ip
            pure none
      | none => createNew dp type

def openInode (path : Sys.Path) (omode : UInt32) : Op (Option ℕ) :=
  if omode &&& O_CREATE ≠ 0 then create path .file
  else do
    match ← namei path with
    | none => pure none
    | some ip => do
        ilock ip
        let isDir ← check
        if isDir = true ∧ omode ≠ 0 then
          iunlockput ip
          pure none
        else pure (some ip)

def openedFile (f : File) (ip : ℕ) (omode : UInt32) : File :=
  { f with
    type := .inode, ip := ip, off := 0
    readable := decide (omode &&& O_WRONLY = 0)
    writable := decide (omode &&& O_WRONLY ≠ 0 ∨ omode &&& O_RDWR ≠ 0) }

def openFail (ip : ℕ) : Op Int := do
  iunlockput ip
  endFail

def openFile (ip : ℕ) (omode : UInt32) : Op Int := do
  match ← filealloc with
  | none => openFail ip
  | some f => do
      match ← fdalloc f with
      | none => do
          fileclose f
          openFail ip
      | some fd => do
          iunlock ip
          endOp
          .modify fun s =>
            { s with ftable := update s.ftable f (openedFile (s.ftable f) ip omode) }
          pure fd.val

def sysOpen (path : Option Sys.Path) (omode : UInt32) : Op Int :=
  match path with
  | none => pure (-1)
  | some path => do
      beginOp
      match ← openInode path omode with
      | none => endFail
      | some ip => openFile ip omode

def makeInode (path : Option Sys.Path) (type : Sys.IType) : Op Int := do
  beginOp
  match path with
  | none => endFail
  | some path => do
      match ← create path type with
      | none => endFail
      | some ip => do
          iunlockput ip
          endOp
          pure 0

def sysMkdir (path : Option Sys.Path) : Op Int := makeInode path .dir

def sysMknod (path : Option Sys.Path) : Op Int := makeInode path .dev

def sysChdir (path : Option Sys.Path) : Op Int := do
  beginOp
  match path with
  | none => endFail
  | some path => do
      match ← namei path with
      | none => endFail
      | some ip => do
          ilock ip
          if ← check then
            iunlockput ip
            endFail
          else
            iunlock ip
            let cwd ← .read fun s => s.cwd
            iput cwd
            endOp
            .modify fun s => { s with cwd := ip }
            pure 0

def vm : Op Bool := do
  mayPanic .vm
  check

def loaduvm (ip : ℕ) : ℕ → ℕ → ℕ → Op Bool
  | 0, _, _ => pure true
  | pages + 1, off, n =>
    if n = 0 then pure true
    else do
      mayPanic .vm
      let m := min n 4096
      let r ← readi ip off m
      if r ≠ m then pure false else loaduvm ip pages (off + m) (n - m)

def loadSegments (ip : ℕ) : ℕ → ℕ → Op Bool
  | 0, _ => pure true
  | n + 1, off => do
      let r ← readi ip off 32
      if r ≠ 32 then pure false
      else if ← check then
        loadSegments ip n ((off + 32) % 2 ^ 32)
      else if ← check then
        pure false
      else if ← vm then
        let phoff ← ask
        let filesz ← ask
        if ← loaduvm ip filesz phoff filesz then loadSegments ip n ((off + 32) % 2 ^ 32)
        else pure false
      else pure false

def execLoad (ip : ℕ) : Op Bool := do
  let r ← readi ip 0 52
  if r ≠ 52 then pure false
  else if ← check then
    pure false
  else if ← vm then
    let phnum ← ask
    let phoff ← ask
    loadSegments ip (phnum % 2 ^ 16) phoff
  else pure false

def pushArgs : ℕ → Op Bool
  | 0 => pure true
  | argc + 1 => do
      if ← check then pure false else pushArgs argc

def execStack (argc : ℕ) : Op Int := do
  if ← vm then
    if ← pushArgs argc then
      if ← vm then
        pure 0
      else pure (-1)
    else pure (-1)
  else pure (-1)

def exec (path : Sys.Path) (argc : ℕ) : Op Int := do
  beginOp
  match ← namei path with
  | none => endFail
  | some ip => do
      ilock ip
      if ← execLoad ip then
        iunlockput ip
        endOp
        execStack argc
      else
        mayPanic .vm
        iunlockput ip
        endFail

def sysExec (path : Option Sys.Path) (argc : ℕ) : Op Int :=
  match path with
  | none => pure (-1)
  | some path => do
      if ← check then pure (-1) else exec path argc

def pipeEnd (f : File) (writable : Bool) : File :=
  { f with type := .pipe, readable := !writable, writable := writable }

def pipealloc : Op (Option (Fin NFILE × Fin NFILE)) := do
  match ← filealloc with
  | none => pure none
  | some f₀ => do
      match ← filealloc with
      | none => do
          fileclose f₀
          pure none
      | some f₁ => do
          if ← check then
            fileclose f₀
            fileclose f₁
            pure none
          else
            .modify fun s =>
              { s with
                ftable := update
                  (update s.ftable f₀ (pipeEnd (s.ftable f₀) false)) f₁
                  (pipeEnd (s.ftable f₁) true) }
            pure (some (f₀, f₁))

def pipeFail (rf wf : Fin NFILE) : Op Int := do
  fileclose rf
  fileclose wf
  pure (-1)

def sysPipe : Op Int := do
  if ← check then pure (-1)
  else
    match ← pipealloc with
    | none => pure (-1)
    | some (rf, wf) => do
        match ← fdalloc rf with
        | none => pipeFail rf wf
        | some fd₀ => do
            match ← fdalloc wf with
            | none => do
                .modify fun s => { s with ofile := update s.ofile fd₀ none }
                pipeFail rf wf
            | some _ => pure 0

def exitFiles : List (Fin NOFILE) → Op Unit
  | [] => pure ()
  | fd :: rest => do
      match ← .read fun s => s.ofile fd with
      | none => exitFiles rest
      | some f => do
          fileclose f
          .modify fun s => { s with ofile := update s.ofile fd none }
          exitFiles rest

def exit : Op Int := do
  mayPanic .initExiting
  exitFiles (List.finRange NOFILE)
  beginOp
  let cwd ← .read fun s => s.cwd
  iput cwd
  endOp
  .modify fun s => { s with cwd := 0 }
  pure 0

def Call.body : Call → Op Int
  | .open path omode => sysOpen path omode
  | .close fd => sysClose fd
  | .read fd n => sysRead fd n
  | .write fd n => sysWrite fd n
  | .link old new => sysLink old new
  | .unlink path => sysUnlink path
  | .mkdir path => sysMkdir path
  | .mknod path => sysMknod path
  | .chdir path => sysChdir path
  | .exec path argc => sysExec path argc
  | .exit => Trans.exit
  | .pipe => sysPipe
  | .dup fd => sysDup fd
  | .fstat fd => sysFstat fd

end Xv6.Trans
