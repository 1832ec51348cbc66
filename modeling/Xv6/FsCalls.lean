import Xv6.FsKernel
import Xv6.Transition

/- The calls on files, directories and processes (file.c, sysfile.c, exec.c, and
   `fork`, `exit` and `wait` of proc.c), and runs of calls.

   A call of process `p` comes with its arguments as the kernel fetches them; `none`
   stands for an argument that `argint`, `argptr` or `argstr` refuses. A call that
   waits for another process (for data in a pipe or on the console, for a child)
   runs when what it waits for is there; what a pipe returns is left open, as it
   concerns no table. Memory is left open too: `coin` says which allocations succeed.

   Correspondence (C ↔ Lean):
     `filealloc`, `filedup`, `fileclose`, `fileread`, `filewrite`, `filestat` ↔ the same
     `fdalloc`, `argfd`, `sys_dup` .. `sys_pipe` ↔ `fdalloc`, `argfd`, `sysDup` .. `sysPipe`
     `exec`, `fork`, `exit`, `wait`             ↔ `exec`, `fork`, `exit`, `wait` -/
namespace Xv6.Fs
open List Bits ByteBlock Log Command Transition
open BitVec (ofNat)

/-- Whether an allocation of memory succeeds. -/
def flip : M Bool := do
  let s ← gets id
  modify fun s => { s with coin := s.coin.tail }
  pure (s.coin.headD false)

/-! ## file.c -/

def getFile (f : Fp) : M File := gets fun s => s.file f

def setFile (f : Fp) (x : File) : M Unit := modify fun s => s.setFile f x

def filealloc : M (Option Fp) := do
  let s ← gets id
  match (finRange NFILE).find? fun f => (s.file f).ref = 0 with
  | some f =>
    setFile f { s.file f with ref := 1 }
    pure (some f)
  | none => pure none

def filedup (f : Fp) : M Fp := do
  let x ← getFile f
  if x.ref < 1 then panic .filedup
  else
    setFile f { x with ref := x.ref + 1 }
    pure f

def fileclose (f : Fp) : M Unit := do
  let ff ← getFile f
  if ff.ref < 1 then panic .fileclose
  else if 0 < ff.ref - 1 then setFile f { ff with ref := ff.ref - 1 }
  else
    setFile f { ff with ref := 0, type := .none }
    match ff.type with
    | .inode =>
      beginOp
      iput ff.ip
      endOp
    -- `pipeclose` changes the pipe only
    | .pipe | .none => pure ()

/-- `false` for -1. -/
def filestat (f : Fp) : M Bool := do
  let x ← getFile f
  match x.type with
  | .inode =>
    ilock x.ip
    -- `stati` copies the fields out
    iunlock x.ip
    pure true
  | .pipe | .none => pure false

/-- The bytes read; `piped` is what the pipe gives. -/
def fileread (f : Fp) (n : Word) (piped : Option (List Byte)) : M (Option (List Byte)) := do
  let x ← getFile f
  if x.readable = false then pure none
  else
    match x.type with
    | .pipe => pure piped
    | .inode =>
      ilock x.ip
      let r ← readi x.ip x.off n
      setFile f { x with off := x.off + ofNat 32 ((r.getD []).length) }
      iunlock x.ip
      pure r
    | .none => panic .fileread

/-- `((MAXOPBLOCKS-1-1-2) / 2) * 512` -/
def maxWrite : Nat := ((MAXOPBLOCKS - 1 - 1 - 2) / 2) * 512

def filewriteFrom (f : Fp) : Nat → List Byte → M Bool
  | 0, _ => pure true
  | fuel + 1, src => do
    if src = [] then pure true
    else
      let n1 := min src.length maxWrite
      let x ← getFile f
      beginOp
      ilock x.ip
      let r ← writei x.ip (src.take n1) x.off
      setFile f { x with off := x.off + ofNat 32 (r.getD 0) }
      iunlock x.ip
      endOp
      match r with
      | none => pure false
      | some r => if r ≠ n1 then panic .shortWrite else filewriteFrom f fuel (src.drop n1)

/-- `false` for -1; `piped` is what the pipe says. -/
def filewrite (f : Fp) (src : List Byte) (piped : Bool) : M Bool := do
  let x ← getFile f
  if x.writable = false then pure false
  else
    match x.type with
    | .pipe => pure piped
    | .inode => filewriteFrom f src.length src
    | .none => panic .filewrite

/-! ## sysfile.c -/

def getProc (p : Pp) : M Proc := gets fun s => s.proc p

def setProc (p : Pp) (x : Proc) : M Unit := modify fun s => s.setProc p x

def setOfile (p : Pp) (fd : Fin NOFILE) (f : Option Fp) : M Unit := do
  let x ← getProc p
  setProc p { x with ofile := Function.update x.ofile fd f }

/-- The open file of a descriptor; the descriptor is any int. -/
def argfd (p : Pp) (fd : Int) : M (Option (Fin NOFILE × Fp)) := do
  let x ← getProc p
  if h : 0 ≤ fd ∧ fd.toNat < NOFILE then
    match x.ofile ⟨fd.toNat, h.2⟩ with
    | some f => pure (some (⟨fd.toNat, h.2⟩, f))
    | none => pure none
  else pure none

def fdalloc (p : Pp) (f : Fp) : M (Option (Fin NOFILE)) := do
  let x ← getProc p
  match (finRange NOFILE).find? fun fd => x.ofile fd = none with
  | some fd =>
    setOfile p fd (some f)
    pure (some fd)
  | none => pure none

def sysDup (p : Pp) (fd : Int) : M Bool := do
  match ← argfd p fd with
  | none => pure false
  | some (_, f) =>
    match ← fdalloc p f with
    | none => pure false
    | some _ =>
      let _ ← filedup f
      pure true

def sysRead (p : Pp) (fd : Int) (n : Option Word) (piped : Option (List Byte)) : M Bool := do
  match ← argfd p fd, n with
  | some (_, f), some n =>
    let r ← fileread f n piped
    pure r.isSome
  | _, _ => pure false

def sysWrite (p : Pp) (fd : Int) (src : Option (List Byte)) (piped : Bool) : M Bool := do
  match ← argfd p fd, src with
  | some (_, f), some src => filewrite f src piped
  | _, _ => pure false

def sysClose (p : Pp) (fd : Int) : M Bool := do
  match ← argfd p fd with
  | none => pure false
  | some (fd, f) =>
    setOfile p fd none
    fileclose f
    pure true

def sysFstat (p : Pp) (fd : Int) (st : Bool) : M Bool := do
  match ← argfd p fd, st with
  | some (_, f), true => filestat f
  | _, _ => pure false

def O_WRONLY : Word := 0x001
def O_RDWR : Word := 0x002
def O_CREATE : Word := 0x200

/-- What `sys_open` opens: an inode that is locked. -/
def openInode (p : Pp) (path : List Byte) (omode : Word) : M (Option Ip) := do
  if omode &&& O_CREATE ≠ 0 then create p path T_FILE 0 0
  else
    match ← namei p path with
    | none => pure none
    | some ip =>
      ilock ip
      let i ← getInode ip
      if i.d.type = T_DIR ∧ omode ≠ 0 then
        iunlockput ip
        pure none
      else pure (some ip)

def sysOpen (p : Pp) (path : Option (List Byte)) (omode : Word) : M Bool := do
  match path with
  | none => pure false
  | some path =>
    beginOp
    match ← openInode p path omode with
    | none =>
      endOp
      pure false
    | some ip =>
      match ← filealloc with
      | none =>
        iunlockput ip
        endOp
        pure false
      | some f =>
        match ← fdalloc p f with
        | none =>
          fileclose f
          iunlockput ip
          endOp
          pure false
        | some _ =>
          iunlock ip
          endOp
          let x ← getFile f
          setFile f { x with
            type := .inode, ip, off := 0
            readable := omode &&& O_WRONLY = 0
            writable := omode &&& O_WRONLY ≠ 0 ∨ omode &&& O_RDWR ≠ 0 }
          pure true

/-- `argstr(0, &path)`, and `create` if there is a path. -/
def createAt (p : Pp) (path : Option (List Byte)) (type major minor : Half) : M (Option Ip) :=
  match path with
  | none => pure none
  | some path => create p path type major minor

/-- `argstr(0, &path)`, and `namei` if there is a path. -/
def nameiAt (p : Pp) (path : Option (List Byte)) : M (Option Ip) :=
  match path with
  | none => pure none
  | some path => namei p path

/-- `sys_mkdir` and `sys_mknod`: make the inode and release it. -/
def sysMake (p : Pp) (path : Option (List Byte)) (type major minor : Half) : M Bool := do
  beginOp
  match ← createAt p path type major minor with
  | none =>
    endOp
    pure false
  | some ip =>
    iunlockput ip
    endOp
    pure true

def sysMkdir (p : Pp) (path : Option (List Byte)) : M Bool := sysMake p path T_DIR 0 0

/-- The two numbers are passed as `short`. -/
def sysMknod (p : Pp) (path : Option (List Byte)) (major minor : Word) : M Bool :=
  sysMake p path T_DEV (major.setWidth 16) (minor.setWidth 16)

def sysChdir (p : Pp) (path : Option (List Byte)) : M Bool := do
  beginOp
  match ← nameiAt p path with
  | none =>
    endOp
    pure false
  | some ip =>
    ilock ip
    let i ← getInode ip
    if i.d.type ≠ T_DIR then
      iunlockput ip
      endOp
      pure false
    else
      iunlock ip
      let x ← getProc p
      match x.cwd with
      | none => panic .trap
      | some cwd =>
        iput cwd
        endOp
        let x ← getProc p
        setProc p { x with cwd := some ip }
        pure true

def pipealloc : M (Option (Fp × Fp)) := do
  match ← filealloc with
  | none => pure none
  | some f0 =>
    match ← filealloc with
    | none =>
      fileclose f0
      pure none
    | some f1 =>
      if ← flip then
        let x0 ← getFile f0
        setFile f0 { x0 with type := .pipe, readable := true, writable := false }
        let x1 ← getFile f1
        setFile f1 { x1 with type := .pipe, readable := false, writable := true }
        pure (some (f0, f1))
      else
        fileclose f0
        fileclose f1
        pure none

def sysPipe (p : Pp) (arg : Bool) : M Bool := do
  if arg = false then pure false
  else
    match ← pipealloc with
    | none => pure false
    | some (rf, wf) =>
      match ← fdalloc p rf with
      | none =>
        fileclose rf
        fileclose wf
        pure false
      | some fd0 =>
        match ← fdalloc p wf with
        | none =>
          setOfile p fd0 none
          fileclose rf
          fileclose wf
          pure false
        | some _ => pure true

/-! ## exec.c -/

def elfhdrSize : Nat := 52
def proghdrSize : Nat := 32
def ELF_MAGIC : Word := 0x464C457F
def ELF_PROG_LOAD : Word := 1

/-- `loaduvm`: page by page, `sz` bytes from `offset` on. -/
def loaduvm (ip : Ip) : Nat → Word → Nat → M Bool
  | 0, _, _ => pure true
  | fuel + 1, offset, sz => do
    if sz = 0 then pure true
    else
      let n := min sz 4096
      match ← readi ip offset (ofNat 32 n) with
      | none => pure false
      | some bytes =>
        if bytes.length ≠ n then pure false
        else loaduvm ip fuel (offset + 4096) (sz - n)

/-- The loop of `exec` over the program headers. `allocuvm` succeeds or not. -/
def loadFrom (ip : Ip) : Nat → Word → M Bool
  | 0, _ => pure true
  | phnum + 1, off => do
    match ← readi ip off (ofNat 32 proghdrSize) with
    | none => pure false
    | some ph =>
      if ph.length ≠ proghdrSize then pure false
      else if rd32 ph 0 ≠ ELF_PROG_LOAD then loadFrom ip phnum (off + ofNat 32 proghdrSize)
      else
        let vaddr := rd32 ph 8
        let filesz := rd32 ph 16
        let memsz := rd32 ph 20
        if memsz < filesz then pure false
        else if vaddr + memsz < vaddr then pure false
        else if ← flip then
          if vaddr.toNat % 4096 ≠ 0 then pure false
          else if ← loaduvm ip (filesz.toNat / 4096 + 1) (rd32 ph 4) filesz.toNat then
            loadFrom ip phnum (off + ofNat 32 proghdrSize)
          else pure false
        else pure false

/-- Up to `iunlockput(ip)`: whether the program is in memory. -/
def load (ip : Ip) : M Bool := do
  match ← readi ip 0 (ofNat 32 elfhdrSize) with
  | none => pure false
  | some elf =>
    if elf.length ≠ elfhdrSize then pure false
    else if rd32 elf 0 ≠ ELF_MAGIC then pure false
    else if ← flip then loadFrom ip (rd16 elf 44).toNat (rd32 elf 28)
    else pure false

/-- What follows `iunlockput(ip)` concerns the memory of the process only. -/
def exec (p : Pp) (path : Option (List Byte)) : M Bool := do
  match path with
  | none => pure false
  | some path =>
    beginOp
    match ← namei p path with
    | none =>
      endOp
      pure false
    | some ip =>
      ilock ip
      let loaded ← load ip
      iunlockput ip
      endOp
      if loaded then flip else pure false

/-! ## proc.c -/

def dupFd (p np : Pp) (fd : Fin NOFILE) : M Unit := do
  let x ← getProc p
  match x.ofile fd with
  | none => pure ()
  | some f =>
    let f ← filedup f
    setOfile np fd (some f)

def fork (p : Pp) : M Bool := do
  let s ← gets id
  match (finRange NPROC).find? fun q => (s.proc q).state = .unused with
  | none => pure false
  | some np =>
    -- the kernel stack and the page table
    if ← flip then
      let x ← getProc np
      setProc np { x with state := .used, parent := some p }
      each (dupFd p np) (finRange NOFILE)
      let x ← getProc p
      match x.cwd with
      | none => panic .trap
      | some cwd =>
        let e ← idup cwd
        let y ← getProc np
        setProc np { y with cwd := some e }
        pure true
    else pure false

def closeFd (p : Pp) (fd : Fin NOFILE) : M Unit := do
  let x ← getProc p
  match x.ofile fd with
  | none => pure ()
  | some f =>
    fileclose f
    setOfile p fd none

def initproc : Pp := ⟨0, by decide⟩

def exit (p : Pp) : M Bool := do
  if p = initproc then panic .initExiting
  else
    each (closeFd p) (finRange NOFILE)
    beginOp
    let x ← getProc p
    match x.cwd with
    | none => panic .trap
    | some cwd =>
      iput cwd
      endOp
      let x ← getProc p
      setProc p { x with cwd := none }
      modify fun s => { s with
        proc := fun q => if (s.proc q).parent = some p then { s.proc q with parent := some initproc }
          else s.proc q }
      let x ← getProc p
      setProc p { x with state := .zombie }
      pure true

/-- `wait` when a child has exited, or there is none, or the process has been killed. -/
def wait (p : Pp) : M Bool := do
  let s ← gets id
  match (finRange NPROC).find? fun q =>
      (s.proc q).parent = some p ∧ (s.proc q).state = .zombie with
  | none => pure false
  | some q =>
    setProc q { s.proc q with parent := none, state := .unused }
    pure true

/-! ## Runs of calls -/

inductive Call where
  | dup (fd : Int)
  | read (fd : Int) (n : Option Word) (piped : Option (List Byte))
  | write (fd : Int) (src : Option (List Byte)) (piped : Bool)
  | close (fd : Int)
  | fstat (fd : Int) (st : Bool)
  | link (old new : Option (List Byte))
  | unlink (path : Option (List Byte))
  | open (path : Option (List Byte)) (omode : Word)
  | mkdir (path : Option (List Byte))
  | mknod (path : Option (List Byte)) (major minor : Word)
  | chdir (path : Option (List Byte))
  | exec (path : Option (List Byte))
  | pipe (arg : Bool)
  | fork
  | wait
  | exit

/-- The call as process `p` makes it. -/
def Call.run (p : Pp) : Call → M Bool
  | .dup fd => sysDup p fd
  | .read fd n piped => sysRead p fd n piped
  | .write fd src piped => sysWrite p fd src piped
  | .close fd => sysClose p fd
  | .fstat fd st => sysFstat p fd st
  | .link (some old) (some new) => sysLink p old new
  | .link _ _ => pure false
  | .unlink (some path) => sysUnlink p path
  | .unlink none => pure false
  | .open path omode => sysOpen p path omode
  | .mkdir path => sysMkdir p path
  | .mknod path major minor => sysMknod p path major minor
  | .chdir path => sysChdir p path
  | .exec path => Fs.exec p path
  | .pipe arg => sysPipe p arg
  | .fork => Fs.fork p
  | .wait => Fs.wait p
  | .exit => Fs.exit p

/-- A process calls, with what the console and the memory allocator will give. -/
structure Label where
  p : Pp
  call : Call
  input : List (Option (List Byte))
  coin : List Bool

/-- The state after the call, if the process can make one and the call returns. -/
def step (s : Kernel) (l : Label) : Option Kernel :=
  if (s.proc l.p).state = .used then
    match l.call.run l.p { s with input := l.input, coin := l.coin } with
    | .ok (_, t) => some t
    | .error _ => none
  else none

def zeroInode : Inode := ⟨0, 0, 0, false, false, Dinode.zero⟩

def zeroFile : File := ⟨.none, 0, false, false, ⟨0, NINODE_pos⟩, 0⟩

def zeroProc : Proc := ⟨.unused, none, fun _ => none, none⟩

/-- After boot: the log is empty, and the first process is in the root directory. -/
def boot (blk : Nat → Blk) : Kernel where
  blk
  locked := []
  logged := []
  logsize := (superblockAt (blk 1)).nlog.toNat
  outstanding := 0
  sb := superblockAt (blk 1)
  inode := fun e =>
    if e.val = 0 then { zeroInode with dev := ROOTDEV, inum := ROOTINO, ref := 1 } else zeroInode
  file := fun _ => zeroFile
  proc := fun p =>
    if p = initproc then { zeroProc with state := .used, cwd := some ⟨0, NINODE_pos⟩ } else zeroProc
  input := []
  coin := []

end Xv6.Fs
