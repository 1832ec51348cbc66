import Xv6.Command
import Xv6.FsLayout

/- The file system of the kernel (fs.c), with the calls of sysfile.c that make and
   remove names, as commands on one kernel state.

   A call runs by itself: no other process takes part. What a lock then does is
   to stop a process that waits for a lock it holds itself, for ever (`Stop.hang`).
   `panic` ends the run too, with its reason. The buffer cache is seen through its
   coherence (`Bcache`): a buffer is a lock on the contents of its block. There is one
   device.

   Correspondence (C ↔ Lean):
     contents of the blocks, in the cache       ↔ `Kernel.blk`
     buffers that are locked                    ↔ `Kernel.locked`
     `log.lh.block`, `log.size`, `log.outstanding` ↔ `Kernel.logged`, `logsize`, `outstanding`
     `sb`, `icache.inode`, `ftable.file`, `ptable.proc` ↔ `Kernel.sb`, `inode`, `file`, `proc`
     a pointer into `icache.inode`, `ftable.file` ↔ `Ip`, `Fp`
     `struct inode`                             ↔ `Inode`, with the copy of the disk inode in `d`
     `-1` and a null pointer                    ↔ `none`, `false`
     what the console and the memory allocator give ↔ `Kernel.input`, `Kernel.coin` -/
namespace Xv6.Fs
open Function List Bits ByteBlock Log Command
open BitVec (ofNat)

def NINODE : Nat := 50
def NFILE : Nat := 100
def NPROC : Nat := 64
def NOFILE : Nat := 16
def NBUF : Nat := 30
def MAXOPBLOCKS : Nat := 10
def ROOTDEV : Word := 1
def ROOTINO : Word := 1
def CONSOLE : Half := 1

abbrev Ip := Fin NINODE
abbrev Fp := Fin NFILE
abbrev Pp := Fin NPROC

theorem NINODE_pos : 0 < NINODE := by decide

inductive Panic where
  /-- bio.c: `bget: no buffers`, `brelse` -/
  | noBuffers
  | brelse
  /-- ide.c: `incorrect blockno` -/
  | incorrectBlockno
  /-- log.c: `too big a transaction`, `log_write outside of trans` -/
  | tooBig
  | outside
  /-- fs.c: `balloc: out of blocks`, `freeing free block`, `ialloc: no inodes`, `iget: no inodes`,
  `ilock`, `ilock: no type`, `iunlock`, `bmap: out of range`, `dirlookup not DIR`, `dirlookup read`,
  `dirlink read`, `dirlink` -/
  | outOfBlocks
  | freeingFree
  | noDiskInodes
  | noInodes
  | ilock
  | noType
  | iunlock
  | bmapRange
  | notDir
  | dirlookupRead
  | dirlinkRead
  | dirlink
  /-- sysfile.c: `isdirempty: readi`, `unlink: nlink < 1`, `unlink: writei`, `create dots`,
  `create: dirlink` -/
  | isdirempty
  | unlinkNlink
  | unlinkWritei
  | createDots
  | createDirlink
  /-- file.c: `filedup`, `fileclose`, `fileread`, `filewrite`, `short filewrite` -/
  | filedup
  | fileclose
  | fileread
  | filewrite
  | shortWrite
  /-- proc.c: `init exiting` -/
  | initExiting
  /-- A null pointer is followed: `trap`. -/
  | trap
  deriving DecidableEq

inductive Stop where
  | hang
  | panic (m : Panic)
  deriving DecidableEq

/-- `struct inode` -/
structure Inode where
  dev : Word
  inum : Word
  ref : Int
  lock : Bool
  valid : Bool
  d : Dinode

inductive FdType where
  | none
  | pipe
  | inode
  deriving DecidableEq

/-- `struct file` -/
structure File where
  type : FdType
  ref : Int
  readable : Bool
  writable : Bool
  ip : Ip
  off : Word

inductive ProcState where
  | unused
  | used
  | zombie
  deriving DecidableEq

/-- The fields of `struct proc` that the file system calls use. -/
structure Proc where
  state : ProcState
  parent : Option Pp
  ofile : Fin NOFILE → Option Fp
  cwd : Option Ip

structure Kernel where
  blk : Nat → Blk
  locked : List Nat
  logged : List Nat
  logsize : Nat
  outstanding : Int
  sb : Superblock
  inode : Ip → Inode
  file : Fp → File
  proc : Pp → Proc
  input : List (Option (List Byte))
  /-- Whether the next allocations of memory succeed. -/
  coin : List Bool

abbrev M := Cmd Kernel Stop

def panic {α : Type} (m : Panic) : M α := fail (.panic m)

def hang {α : Type} : M α := fail .hang

namespace Kernel

def setBlk (s : Kernel) (b : Nat) (x : Blk) : Kernel := { s with blk := update s.blk b x }

def setInode (s : Kernel) (e : Ip) (x : Inode) : Kernel :=
  { s with inode := update s.inode e x }

def setFile (s : Kernel) (f : Fp) (x : File) : Kernel := { s with file := update s.file f x }

def setProc (s : Kernel) (p : Pp) (x : Proc) : Kernel := { s with proc := update s.proc p x }

/-- How many buffers are pinned or locked. -/
def buffers (s : Kernel) : Nat := s.logged.length + (s.locked.filter (· ∉ s.logged)).length

end Kernel

/-! ## Buffers and the log -/

/-- `bread`: lock the buffer of block `b`. -/
def bread (b : Nat) : M Unit := do
  let s ← gets id
  if b ∈ s.locked then hang
  else if b ∉ s.logged ∧ NBUF ≤ s.buffers then panic .noBuffers
  else if FSSIZE ≤ b then panic .incorrectBlockno
  else modify fun s => { s with locked := b :: s.locked }

def brelse (b : Nat) : M Unit := do
  let s ← gets id
  if b ∈ s.locked then modify fun s => { s with locked := s.locked.erase b }
  else panic .brelse

def data (b : Nat) : M Blk := gets fun s => s.blk b

def setData (b : Nat) (x : Blk) : M Unit := modify fun s => s.setBlk b x

def logWrite (b : Nat) : M Unit := do
  let s ← gets id
  if LOGSIZE ≤ s.logged.length ∨ s.logsize ≤ s.logged.length + 1 then panic .tooBig
  else if s.outstanding < 1 then panic .outside
  else if b ∈ s.logged then pure ()
  else modify fun s => { s with logged := s.logged ++ [b] }

/-- Waiting for a commit is waiting for ever. -/
def beginOp : M Unit := do
  let s ← gets id
  if (LOGSIZE : Int) < s.logged.length + (s.outstanding + 1) * MAXOPBLOCKS then hang
  else modify fun s => { s with outstanding := s.outstanding + 1 }

/-- The last operation commits, which unpins the buffers. -/
def endOp : M Unit :=
  modify fun s =>
    let outstanding := s.outstanding - 1
    { s with outstanding, logged := if outstanding = 0 then [] else s.logged }

/-- `readsb` into a superblock in memory. -/
def readsb : M Superblock := do
  bread 1
  let x ← data 1
  brelse 1
  pure (superblockAt x)

def bzero (b : Nat) : M Unit := do
  bread b
  setData b zeroBlk
  logWrite b
  brelse b

/-! ## Blocks -/

/-- The loop of `balloc` from block `b` on, for at most so many blocks of the map. -/
def ballocFrom : Nat → Nat → M Word
  | 0, _ => panic .outOfBlocks
  | fuel + 1, b => do
    let sb ← gets Kernel.sb
    if b < sb.size.toNat then
      bread (bblock sb b)
      let x ← data (bblock sb b)
      match (range (min BPB (sb.size.toNat - b))).find? fun bi => bitAt x bi = false with
      | some bi =>
        setData (bblock sb b) (markBit x bi)
        logWrite (bblock sb b)
        brelse (bblock sb b)
        bzero (b + bi)
        pure (ofNat 32 (b + bi))
      | none =>
        brelse (bblock sb b)
        ballocFrom fuel (b + BPB)
    else panic .outOfBlocks

def balloc : M Word := do
  let sb ← gets Kernel.sb
  ballocFrom (sb.size.toNat / BPB + 1) 0

def bfree (b : Word) : M Unit := do
  let sb ← readsb
  modify fun s => { s with sb }
  bread (bblock sb b.toNat)
  let x ← data (bblock sb b.toNat)
  if bitAt x (b.toNat % BPB) = false then panic .freeingFree
  else
    setData (bblock sb b.toNat) (clearBit x (b.toNat % BPB))
    logWrite (bblock sb b.toNat)
    brelse (bblock sb b.toNat)

/-! ## Inodes -/

def getInode (e : Ip) : M Inode := gets fun s => s.inode e

def setInode (e : Ip) (x : Inode) : M Unit := modify fun s => s.setInode e x

def setValid (e : Ip) (valid : Bool) : M Unit := do
  let ip ← getInode e
  setInode e { ip with valid }

/-- The copy of the disk inode is changed. -/
def editInode (e : Ip) (f : Dinode → Dinode) : M Unit :=
  modify fun s => s.setInode e { s.inode e with d := f (s.inode e).d }

def iget (dev inum : Word) : M Ip := do
  let s ← gets id
  match (finRange NINODE).find? fun e =>
      0 < (s.inode e).ref ∧ (s.inode e).dev = dev ∧ (s.inode e).inum = inum with
  | some e =>
    setInode e { s.inode e with ref := (s.inode e).ref + 1 }
    pure e
  | none =>
    match (finRange NINODE).find? fun e => (s.inode e).ref = 0 with
    | some e =>
      setInode e { s.inode e with dev, inum, ref := 1, valid := false }
      pure e
    | none => panic .noInodes

/-- The loop of `ialloc` from inode `inum` on, for at most so many inodes. -/
def iallocFrom (dev : Word) (type : Half) : Nat → Nat → M Ip
  | 0, _ => panic .noDiskInodes
  | fuel + 1, inum => do
    let sb ← gets Kernel.sb
    if inum < sb.ninodes.toNat then
      bread (iblock sb inum)
      let x ← data (iblock sb inum)
      if (dinodeAt x (inum % IPB)).type = 0 then
        setData (iblock sb inum) (putDinode x (inum % IPB) { Dinode.zero with type })
        logWrite (iblock sb inum)
        brelse (iblock sb inum)
        iget dev (ofNat 32 inum)
      else
        brelse (iblock sb inum)
        iallocFrom dev type fuel (inum + 1)
    else panic .noDiskInodes

def ialloc (dev : Word) (type : Half) : M Ip := do
  let sb ← gets Kernel.sb
  iallocFrom dev type sb.ninodes.toNat 1

def iupdate (e : Ip) : M Unit := do
  let ip ← getInode e
  let sb ← gets Kernel.sb
  bread (iblock sb ip.inum.toNat)
  let x ← data (iblock sb ip.inum.toNat)
  setData (iblock sb ip.inum.toNat) (putDinode x (ip.inum.toNat % IPB) ip.d)
  logWrite (iblock sb ip.inum.toNat)
  brelse (iblock sb ip.inum.toNat)

def idup (e : Ip) : M Ip := do
  let ip ← getInode e
  setInode e { ip with ref := ip.ref + 1 }
  pure e

def acquireInode (e : Ip) : M Unit := do
  let ip ← getInode e
  if ip.lock then hang else setInode e { ip with lock := true }

def releaseInode (e : Ip) : M Unit := do
  let ip ← getInode e
  setInode e { ip with lock := false }

/-- In `ilock`: read the inode from disk if necessary. -/
def readInode (e : Ip) : M Unit := do
  let ip ← getInode e
  if ip.valid then pure ()
  else
    let sb ← gets Kernel.sb
    bread (iblock sb ip.inum.toNat)
    let x ← data (iblock sb ip.inum.toNat)
    editInode e fun _ => dinodeAt x (ip.inum.toNat % IPB)
    brelse (iblock sb ip.inum.toNat)
    setValid e true
    let ip ← getInode e
    if ip.d.type = 0 then panic .noType else pure ()

def ilock (e : Ip) : M Unit := do
  let ip ← getInode e
  if ip.ref < 1 then panic .ilock
  else
    acquireInode e
    readInode e

def iunlock (e : Ip) : M Unit := do
  let ip ← getInode e
  if ip.lock = false ∨ ip.ref < 1 then panic .iunlock else releaseInode e

/-- `bmap` for an index below `NDIRECT`, and for the index of the indirect block. -/
def bmapAddr (e : Ip) (k : Nat) : M Word := do
  let ip ← getInode e
  if ip.d.addr k = 0 then
    let addr ← balloc
    editInode e fun d => d.setAddr k addr
    pure addr
  else pure (ip.d.addr k)

/-- `bmap` for an entry of the indirect block. -/
def bmapEntry (ind : Word) (j : Nat) : M Word := do
  bread ind.toNat
  let x ← data ind.toNat
  if addrAt x j = 0 then
    let addr ← balloc
    let x ← data ind.toNat
    setData ind.toNat (putAddr x j addr)
    logWrite ind.toNat
    brelse ind.toNat
    pure addr
  else
    brelse ind.toNat
    pure (addrAt x j)

def bmap (e : Ip) (bn : Nat) : M Word := do
  if bn < NDIRECT then bmapAddr e bn
  else if bn - NDIRECT < NINDIRECT then
    let ind ← bmapAddr e NDIRECT
    bmapEntry ind (bn - NDIRECT)
  else panic .bmapRange

def freeDirect (e : Ip) (i : Nat) : M Unit := do
  let ip ← getInode e
  if ip.d.addr i = 0 then pure ()
  else
    bfree (ip.d.addr i)
    editInode e fun d => d.setAddr i 0

def freeEntry (ind : Nat) (j : Nat) : M Unit := do
  let x ← data ind
  if addrAt x j = 0 then pure () else bfree (addrAt x j)

/-- The indirect block and what it lists. -/
def freeIndirect (e : Ip) : M Unit := do
  let ip ← getInode e
  if ip.d.addr NDIRECT = 0 then pure ()
  else
    bread (ip.d.addr NDIRECT).toNat
    each (freeEntry (ip.d.addr NDIRECT).toNat) (range NINDIRECT)
    brelse (ip.d.addr NDIRECT).toNat
    bfree (ip.d.addr NDIRECT)
    editInode e fun d => d.setAddr NDIRECT 0

def itrunc (e : Ip) : M Unit := do
  each (freeDirect e) (range NDIRECT)
  freeIndirect e
  editInode e fun d => { d with size := 0 }
  iupdate e

/-- In `iput`: inode has no links and no other references: truncate and free. -/
def freeIfLast (e : Ip) : M Unit := do
  let ip ← getInode e
  if ip.valid ∧ ip.d.nlink = 0 ∧ ip.ref = 1 then
    itrunc e
    editInode e fun d => { d with type := 0 }
    iupdate e
    setValid e false
  else pure ()

def iput (e : Ip) : M Unit := do
  acquireInode e
  freeIfLast e
  releaseInode e
  let ip ← getInode e
  setInode e { ip with ref := ip.ref - 1 }

def iunlockput (e : Ip) : M Unit := do
  iunlock e
  iput e

/-! ## Contents -/

/-- What is typed next; `none` if the process is killed while it waits. -/
def typed : M (Option (List Byte)) := do
  let s ← gets id
  modify fun s => { s with input := s.input.tail }
  pure (s.input.headD none)

/-- `consoleread` unlocks the inode while it waits. -/
def consoleread (e : Ip) (n : Nat) : M (Option (List Byte)) := do
  iunlock e
  let line ← typed
  ilock e
  pure (line.map (·.take n))

def consolewrite (e : Ip) (n : Nat) : M (Option Nat) := do
  iunlock e
  ilock e
  pure (some n)

/-- The loop of `readi`: `n` bytes from `off` on. Every round reads a byte at least. -/
def readLoop (e : Ip) : Nat → Nat → Nat → M (List Byte)
  | 0, _, _ => pure []
  | fuel + 1, off, n => do
    if n = 0 then pure []
    else
      let addr ← bmap e (off / BSIZE)
      bread addr.toNat
      let x ← data addr.toNat
      let m := min n (BSIZE - off % BSIZE)
      brelse addr.toNat
      let rest ← readLoop e fuel (off + m) (n - m)
      pure (slice x (off % BSIZE) m ++ rest)

/-- The bytes that `readi` copies, or `none` for -1. -/
def readi (e : Ip) (off n : Word) : M (Option (List Byte)) := do
  let ip ← getInode e
  if ip.d.type = T_DEV then
    if ip.d.major = CONSOLE then consoleread e n.toNat else pure none
  else if ip.d.size < off ∨ off + n < off then pure none
  else
    let n := if ip.d.size < off + n then ip.d.size - off else n
    let bytes ← readLoop e n.toNat off.toNat n.toNat
    pure (some bytes)

/-- The loop of `writei`: `src` to `off` and on. -/
def writeLoop (e : Ip) : Nat → Nat → List Byte → M Unit
  | 0, _, _ => pure ()
  | fuel + 1, off, src => do
    if src = [] then pure ()
    else
      let addr ← bmap e (off / BSIZE)
      bread addr.toNat
      let m := min src.length (BSIZE - off % BSIZE)
      let x ← data addr.toNat
      setData addr.toNat (blit x (off % BSIZE) (src.take m))
      logWrite addr.toNat
      brelse addr.toNat
      writeLoop e fuel (off + m) (src.drop m)

/-- The end of `writei`: the file may have grown. -/
def growTo (e : Ip) (off : Word) : M Unit := do
  let ip ← getInode e
  if ip.d.size < off then
    editInode e fun d => { d with size := off }
    iupdate e
  else pure ()

/-- `writei` of the bytes `src`, as many as a `uint` can count. -/
def writei (e : Ip) (src : List Byte) (off : Word) : M (Option Nat) := do
  let ip ← getInode e
  let n := ofNat 32 src.length
  if ip.d.type = T_DEV then
    if ip.d.major = CONSOLE then consolewrite e src.length else pure none
  else if ip.d.size < off ∨ off + n < off then pure none
  else if MAXFILE * BSIZE < (off + n).toNat then pure none
  else if src = [] then pure (some 0)
  else
    writeLoop e src.length off.toNat src
    growTo e (off + n)
    pure (some src.length)

/-! ## Directories -/

/-- The loop of `dirlookup`: the first entry with the name, from `off` on, and its offset. -/
def lookupFrom (e : Ip) (name : List Byte) : Nat → Nat → M (Option (Ip × Nat))
  | 0, _ => pure none
  | fuel + 1, off => do
    let ip ← getInode e
    if off < ip.d.size.toNat then
      match ← readi e (ofNat 32 off) (ofNat 32 direntSize) with
      | none => panic .dirlookupRead
      | some bytes =>
        if bytes.length ≠ direntSize then panic .dirlookupRead
        else
          let de := Dirent.ofBytes bytes
          if de.inum ≠ 0 ∧ namecmp name de.name then
            let next ← iget ip.dev (de.inum.setWidth 32)
            pure (some (next, off))
          else lookupFrom e name fuel (off + direntSize)
    else pure none

def dirlookup (e : Ip) (name : List Byte) : M (Option (Ip × Nat)) := do
  let ip ← getInode e
  if ip.d.type ≠ T_DIR then panic .notDir
  else lookupFrom e name (ip.d.size.toNat / direntSize + 1) 0

/-- The loop of `dirlink`: the offset of an empty entry. -/
def emptyFrom (e : Ip) : Nat → Nat → M Nat
  | 0, off => pure off
  | fuel + 1, off => do
    let ip ← getInode e
    if off < ip.d.size.toNat then
      match ← readi e (ofNat 32 off) (ofNat 32 direntSize) with
      | none => panic .dirlinkRead
      | some bytes =>
        if bytes.length ≠ direntSize then panic .dirlinkRead
        else if (Dirent.ofBytes bytes).inum = 0 then pure off
        else emptyFrom e fuel (off + direntSize)
    else pure off

/-- `false` for -1: the name is there already. -/
def dirlink (e : Ip) (name : List Byte) (inum : Word) : M Bool := do
  match ← dirlookup e name with
  | some (ip, _) =>
    iput ip
    pure false
  | none =>
    let ip ← getInode e
    let off ← emptyFrom e (ip.d.size.toNat / direntSize + 1) 0
    let de : Dirent := ⟨inum.setWidth 16, padName name⟩
    let r ← writei e de.bytes (ofNat 32 off)
    if r = some direntSize then pure true else panic .dirlink

/-! ## Paths -/

def slash : Byte := 47

/-- The next element of the path and what follows it. -/
def skipelem (path : List Byte) : Option (List Byte × List Byte) :=
  let s := path.dropWhile (· = slash)
  if s = [] then none
  else some ((s.takeWhile (· ≠ slash)).take DIRSIZ,
    (s.dropWhile (· ≠ slash)).dropWhile (· = slash))

/-- The loop of `namex` from inode `e` on. -/
def namexFrom (parent : Bool) : Nat → Ip → List Byte → List Byte → M (Option (Ip × List Byte))
  | 0, _, _, _ => pure none
  | fuel + 1, e, path, name => do
    match skipelem path with
    | none =>
      if parent then
        iput e
        pure none
      else pure (some (e, name))
    | some (name, path) =>
      ilock e
      let ip ← getInode e
      if ip.d.type ≠ T_DIR then
        iunlockput e
        pure none
      else if parent ∧ path = [] then
        iunlock e
        pure (some (e, name))
      else
        match ← dirlookup e name with
        | none =>
          iunlockput e
          pure none
        | some (next, _) =>
          iunlockput e
          namexFrom parent fuel next path name

/-- Where `namex` starts: at the root, or in the current directory of process `p`. -/
def namexStart (p : Pp) (path : List Byte) : M Ip := do
  if path.head? = some slash then iget ROOTDEV ROOTINO
  else
    let s ← gets id
    match (s.proc p).cwd with
    | some e => idup e
    | none => panic .trap

def namex (p : Pp) (path : List Byte) (parent : Bool) : M (Option (Ip × List Byte)) := do
  let e ← namexStart p path
  namexFrom parent (path.length + 1) e path []

def namei (p : Pp) (path : List Byte) : M (Option Ip) := do
  let r ← namex p path false
  pure (r.map Prod.fst)

def nameiparent (p : Pp) (path : List Byte) : M (Option (Ip × List Byte)) := namex p path true

/-! ## Names (sysfile.c) -/

def dot : List Byte := [46]
def dotdot : List Byte := [46, 46]

/-- In `create`: the entries of a new directory `ip` in `dp`. -/
def createDots (dp ip : Ip) : M Unit := do
  -- for ".."
  editInode dp fun d => { d with nlink := d.nlink + 1 }
  iupdate dp
  let i ← getInode ip
  let d ← getInode dp
  if ← dirlink ip dot i.inum then
    if ← dirlink ip dotdot d.inum then pure () else panic .createDots
  else panic .createDots

/-- In `create`: a new inode, and its name in `dp`. -/
def createNew (dp : Ip) (name : List Byte) (type major minor : Half) : M Ip := do
  let d ← getInode dp
  let ip ← ialloc d.dev type
  ilock ip
  editInode ip fun d => { d with major, minor, nlink := 1 }
  iupdate ip
  (if type = T_DIR then createDots dp ip else pure ())
  let i ← getInode ip
  if ← dirlink dp name i.inum then
    iunlockput dp
    pure ip
  else panic .createDirlink

def create (p : Pp) (path : List Byte) (type major minor : Half) : M (Option Ip) := do
  match ← nameiparent p path with
  | none => pure none
  | some (dp, name) =>
    ilock dp
    match ← dirlookup dp name with
    | some (ip, _) =>
      iunlockput dp
      ilock ip
      let i ← getInode ip
      if type = T_FILE ∧ i.d.type = T_FILE then pure (some ip)
      else
        iunlockput ip
        pure none
    | none =>
      let ip ← createNew dp name type major minor
      pure (some ip)

/-- The end of `sys_link` when the new name cannot be made. -/
def linkBad (ip : Ip) : M Bool := do
  ilock ip
  editInode ip fun d => { d with nlink := d.nlink - 1 }
  iupdate ip
  iunlockput ip
  endOp
  pure false

/-- `dp->dev == ip->dev && dirlink(dp, name, ip->inum) == 0` -/
def linkIn (dp : Ip) (name : List Byte) (ip : Ip) : M Bool := do
  let d ← getInode dp
  let i ← getInode ip
  if d.dev ≠ i.dev then pure false else dirlink dp name i.inum

def sysLink (p : Pp) (old new : List Byte) : M Bool := do
  beginOp
  match ← namei p old with
  | none =>
    endOp
    pure false
  | some ip =>
    ilock ip
    let i ← getInode ip
    if i.d.type = T_DIR then
      iunlockput ip
      endOp
      pure false
    else
      editInode ip fun d => { d with nlink := d.nlink + 1 }
      iupdate ip
      iunlock ip
      match ← nameiparent p new with
      | none => linkBad ip
      | some (dp, name) =>
        ilock dp
        if ← linkIn dp name ip then
          iunlockput dp
          iput ip
          endOp
          pure true
        else
          iunlockput dp
          linkBad ip

/-- The loop of `isdirempty` from `off` on. -/
def isdiremptyFrom (e : Ip) : Nat → Nat → M Bool
  | 0, _ => pure true
  | fuel + 1, off => do
    let ip ← getInode e
    if off < ip.d.size.toNat then
      match ← readi e (ofNat 32 off) (ofNat 32 direntSize) with
      | none => panic .isdirempty
      | some bytes =>
        if bytes.length ≠ direntSize then panic .isdirempty
        else if (Dirent.ofBytes bytes).inum ≠ 0 then pure false
        else isdiremptyFrom e fuel (off + direntSize)
    else pure true

def isdirempty (e : Ip) : M Bool := do
  let ip ← getInode e
  isdiremptyFrom e (ip.d.size.toNat / direntSize + 1) (2 * direntSize)

/-- `ip->type == T_DIR && !isdirempty(ip)` -/
def isBusy (e : Ip) : M Bool := do
  let ip ← getInode e
  if ip.d.type = T_DIR then
    let empty ← isdirempty e
    pure !empty
  else pure false

/-- In `sys_unlink`: clear the entry, and count the `..` of a directory no more. -/
def unlinkEntry (dp ip : Ip) (off : Nat) : M Unit := do
  let r ← writei dp (replicate direntSize 0) (ofNat 32 off)
  if r ≠ some direntSize then panic .unlinkWritei
  else
    let i ← getInode ip
    if i.d.type = T_DIR then
      editInode dp fun d => { d with nlink := d.nlink - 1 }
      iupdate dp
    else pure ()

/-- The end of `sys_unlink` when the name cannot be removed. -/
def unlinkBad (dp : Ip) : M Bool := do
  iunlockput dp
  endOp
  pure false

def sysUnlink (p : Pp) (path : List Byte) : M Bool := do
  beginOp
  match ← nameiparent p path with
  | none =>
    endOp
    pure false
  | some (dp, name) =>
    ilock dp
    -- Cannot unlink "." or "..".
    if namecmp name dot ∨ namecmp name dotdot then unlinkBad dp
    else
      match ← dirlookup dp name with
      | none => unlinkBad dp
      | some (ip, off) =>
        ilock ip
        let i ← getInode ip
        if i.d.nlink.toInt < 1 then panic .unlinkNlink
        else if ← isBusy ip then
          iunlockput ip
          unlinkBad dp
        else
          unlinkEntry dp ip off
          iunlockput dp
          editInode ip fun d => { d with nlink := d.nlink - 1 }
          iupdate ip
          iunlockput ip
          endOp
          pure true

end Xv6.Fs
