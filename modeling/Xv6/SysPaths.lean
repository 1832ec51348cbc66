import Xv6.Paths
import Xv6.Signal

/- The paths through the system calls.

   For each system call, the order in which its code fetches arguments, takes and
   releases sleep-locks, enters and leaves a file-system transaction, and writes
   user memory or the signal state. Branch conditions are left open, and a path
   that ends in `panic` is left out: everything it does before is also done on a
   path that goes on. Functions whose result decides how their caller goes on
   with what they hold (`namex`, `create`) take the two continuations.

   1. `sysPath_balanced`: every path of every system call gives back what it took:
      it ends with no sleep-lock held and outside any transaction.
   2. `sysPath_orderly`: every path fetches its arguments before it writes user
      memory.

   Correspondence (C ↔ Lean): each definition has the name of the function it
   follows (bio.c, log.c, fs.c, file.c, pipe.c, console.c, exec.c, sysfile.c,
   sysproc.c, and `exit`, `forkret` of proc.c). -/
namespace Xv6
open Paths

/-- What the code of a system call does, as far as it is followed. -/
inductive Act where
  /-- `argint(n, ..)`, alone or inside `argptr`, `argstr`, `argfd`. -/
  | argint (n : Nat)
  | acquiresleep
  | releasesleep
  | beginOp
  | endOp
  /-- A write to user memory, or a change of its size. -/
  | touch
  /-- The loop at the head of `exec`. -/
  | resetHandlers
  /-- The commit to the new image in `exec`. -/
  | exec
  | fork
  | wait
  | kill
  | sigprocmask
  | signal
  | sigret
  deriving DecidableEq, Repr

abbrev Path := Cmd Act

/-- How many sleep-locks a process holds, and how many transactions it is in. -/
structure Held where
  locks : Nat
  op : Nat
  deriving DecidableEq, Repr

def Held.nothing : Held := ⟨0, 0⟩

/-- What an action does to what is held. Nothing is given back that is not held. -/
def hold : Act → Held → Option Held
  | .acquiresleep, h => some ⟨h.locks + 1, h.op⟩
  | .releasesleep, ⟨l + 1, o⟩ => some ⟨l, o⟩
  | .releasesleep, ⟨0, _⟩ => .none
  | .beginOp, h => some ⟨h.locks, h.op + 1⟩
  | .endOp, ⟨l, o + 1⟩ => some ⟨l, o⟩
  | .endOp, ⟨_, 0⟩ => .none
  | _, h => some h

open Cmd (block opt star alt)

/-! ## Buffers and the log -/

def bread : Path := .act .acquiresleep

def brelse : Path := .act .releasesleep

/-- A buffer is read, perhaps changed, and released. -/
def withBuf : Path := block [bread, brelse]

def readsb : Path := withBuf

def writeLog : Path := star (block [bread, bread, brelse, brelse])

def installTrans : Path := star (block [bread, bread, brelse, brelse])

def readHead : Path := withBuf

def writeHead : Path := withBuf

def recoverFromLog : Path := block [readHead, installTrans, writeHead]

def initlog : Path := block [readsb, recoverFromLog]

def commit : Path := opt (block [writeLog, writeHead, installTrans, writeHead])

def beginOp : Path := .act .beginOp

/-- The transaction counts as open until `end_op` returns. -/
def endOp : Path := block [opt commit, .act .endOp]

/-! ## Inodes -/

def bzero : Path := withBuf

def balloc : Path := block [star withBuf, withBuf, bzero]

def bfree : Path := block [readsb, withBuf]

def iinit : Path := readsb

def ialloc : Path := block [star withBuf, withBuf]

def iupdate : Path := withBuf

def ilock : Path := block [.act .acquiresleep, opt withBuf]

def iunlock : Path := .act .releasesleep

def itrunc : Path :=
  block [star (opt bfree), opt (block [bread, star (opt bfree), brelse, bfree]), iupdate]

def iput : Path := block [.act .acquiresleep, opt (block [itrunc, iupdate]), .act .releasesleep]

def iunlockput : Path := block [iunlock, iput]

def bmap : Path := alt (opt balloc) (block [opt balloc, bread, opt balloc, brelse])

/-- `dst` is what a copy to the destination does: `touch` for a user address. -/
def consoleread (dst : Path) : Path := block [iunlock, star dst, ilock]

def consolewrite : Path := block [iunlock, ilock]

def readi (dst : Path) : Path :=
  alt .skip (alt (consoleread dst) (star (block [bmap, bread, dst, brelse])))

def writei : Path :=
  alt .skip (alt consolewrite (block [star (block [bmap, bread, brelse]), opt iupdate]))

def dirlookup : Path := star (readi .skip)

def dirlink : Path := block [dirlookup, alt iput (block [star (readi .skip), writei])]

def isdirempty : Path := star (readi .skip)

/-- `found` goes on with an inode, `failed` with 0. -/
def namex (nameiparent : Bool) (found failed : Path) : Path :=
  block [
    star (block [ilock, dirlookup, iunlockput]),
    alt (if nameiparent then block [iput, failed] else found)
      (block [ilock,
        alt (block [iunlockput, failed])
          (alt (if nameiparent then block [iunlock, found] else block [iunlockput, failed])
            (block [dirlookup, iunlockput, failed]))])]

def namei (found failed : Path) : Path := namex false found failed

def nameiparent (found failed : Path) : Path := namex true found failed

/-! ## Files -/

def fileclose : Path := opt (block [beginOp, iput, endOp])

def filestat : Path := opt (block [ilock, .act .touch, iunlock])

def piperead : Path := star (.act .touch)

def fileread : Path := opt (alt piperead (block [ilock, readi (.act .touch), iunlock]))

def filewrite : Path := opt (star (block [beginOp, ilock, writei, iunlock, endOp]))

/-! ## System calls -/

/-- `if (argint(n, ..) < 0) return -1;` and then `k`. -/
def arg (n : Nat) (k : Path) : Path := block [.act (.argint n), opt k]

def sysDup : Path := arg 0 .skip

def sysRead : Path := arg 0 (arg 2 (arg 1 fileread))

def sysWrite : Path := arg 0 (arg 2 (arg 1 filewrite))

def sysClose : Path := arg 0 fileclose

def sysFstat : Path := arg 0 (arg 1 filestat)

def sysLink : Path :=
  let bad := block [ilock, iupdate, iunlockput, endOp]
  let linked := block [ilock,
    alt (block [opt dirlink, iunlockput, bad]) (block [dirlink, iunlockput, iput, endOp])]
  arg 0 (arg 1 (block [beginOp,
    namei
      (block [ilock,
        alt (block [iunlockput, endOp])
          (block [iupdate, iunlock, nameiparent linked bad])])
      endOp]))

def sysUnlink : Path :=
  let bad := block [iunlockput, endOp]
  arg 0 (block [beginOp,
    nameiparent
      (block [ilock,
        alt bad (block [dirlookup,
          alt bad (block [ilock,
            alt (block [isdirempty, iunlockput, bad])
              (block [opt isdirempty, writei, opt iupdate, iunlockput, iupdate, iunlockput,
                endOp])])])])
      endOp])

/-- `found` goes on with the locked inode, `failed` with 0. -/
def create (found failed : Path) : Path :=
  nameiparent
    (block [ilock, dirlookup,
      alt (block [iunlockput, ilock, alt found (block [iunlockput, failed])])
        (block [ialloc, ilock, iupdate, opt (block [iupdate, dirlink, dirlink]), dirlink,
          iunlockput, found])])
    failed

def sysOpen : Path :=
  let opened := alt (block [opt fileclose, iunlockput, endOp]) (block [iunlock, endOp])
  arg 0 (arg 1 (block [beginOp,
    alt (create opened endOp)
      (namei (block [ilock, alt (block [iunlockput, endOp]) opened]) endOp)]))

def sysMkdir : Path :=
  block [beginOp, .act (.argint 0), alt endOp (create (block [iunlockput, endOp]) endOp)]

def sysMknod : Path :=
  block [beginOp, .act (.argint 0),
    alt endOp (block [.act (.argint 1),
      alt endOp (block [.act (.argint 2),
        alt endOp (create (block [iunlockput, endOp]) endOp)])])]

def sysChdir : Path :=
  block [beginOp, .act (.argint 0),
    alt endOp
      (namei
        (block [ilock, alt (block [iunlockput, endOp]) (block [iunlock, iput, endOp])])
        endOp)]

def loaduvm : Path := star (readi .skip)

def exec : Path :=
  let bad := block [iunlockput, endOp]
  block [.act .resetHandlers, beginOp,
    namei
      (block [ilock, readi .skip,
        alt bad (block [star (block [readi .skip, opt loaduvm]),
          alt bad (block [iunlockput, endOp, opt (.act .exec)])])])
      endOp]

def sysExec : Path := arg 0 (arg 1 (opt exec))

def sysPipe : Path :=
  arg 0 (alt (block [opt fileclose, opt fileclose])
    (alt (block [fileclose, fileclose]) (.act .touch)))

/-- `exit`, up to the point where it takes `ptable.lock` for the last time. -/
def exit : Path := block [star (opt fileclose), beginOp, iput, endOp]

/-- The first process initialises the file system before it returns to user mode. -/
def forkretFirst : Path := block [iinit, initlog]

/-- The body of each system call. `sys_exit` does not come back. -/
def sysPath : Sys → Path
  | .fork => .act .fork
  | .exit => exit
  | .wait => .act .wait
  | .pipe => sysPipe
  | .read => sysRead
  | .kill => arg 0 (arg 1 (.act .kill))
  | .exec => sysExec
  | .fstat => sysFstat
  | .chdir => sysChdir
  | .dup => sysDup
  | .getpid => .skip
  | .sbrk => arg 0 (opt (.act .touch))
  | .sleep => arg 0 .skip
  | .uptime => .skip
  | .open => sysOpen
  | .write => sysWrite
  | .mknod => sysMknod
  | .unlink => sysUnlink
  | .link => sysLink
  | .mkdir => sysMkdir
  | .close => sysClose
  | .sigprocmask => arg 0 (.act .sigprocmask)
  | .signal => arg 0 (arg 1 (.act .signal))
  | .sigret => .act .sigret

/-! ## What each function does to what is held -/

section Balance

variable (r : Held) (l o : Nat)

@[simp] theorem hold_acquiresleep : hold .acquiresleep r = some ⟨r.locks + 1, r.op⟩ := rfl

@[simp] theorem hold_releasesleep : hold .releasesleep ⟨l + 1, o⟩ = some ⟨l, o⟩ := rfl

@[simp] theorem hold_beginOp : hold .beginOp r = some ⟨r.locks, r.op + 1⟩ := rfl

@[simp] theorem hold_endOp : hold .endOp ⟨l, o + 1⟩ = some ⟨l, o⟩ := rfl

@[simp] theorem hold_touch : hold .touch r = some r := rfl

@[simp] theorem hold_argint (n : Nat) : hold (.argint n) r = some r := rfl

@[simp] theorem check_bread : check hold bread r = some ⟨r.locks + 1, r.op⟩ := rfl

@[simp] theorem check_brelse : check hold brelse ⟨l + 1, o⟩ = some ⟨l, o⟩ := rfl

@[simp] theorem check_withBuf : check hold withBuf r = some r := by
  simp [withBuf]

@[simp] theorem check_readsb : check hold readsb r = some r := check_withBuf r

@[simp] theorem check_writeHead : check hold writeHead r = some r := check_withBuf r

@[simp] theorem check_writeLog : check hold writeLog r = some r :=
  check_star (by simp)

@[simp] theorem check_installTrans : check hold installTrans r = some r := check_writeLog r

@[simp] theorem check_commit : check hold commit r = some r := by
  simp [commit]

@[simp] theorem check_beginOp : check hold beginOp r = some ⟨r.locks, r.op + 1⟩ := rfl

@[simp] theorem check_endOp : check hold endOp ⟨l, o + 1⟩ = some ⟨l, o⟩ := by
  simp [endOp]

@[simp] theorem check_bzero : check hold bzero r = some r := check_withBuf r

@[simp] theorem check_balloc : check hold balloc r = some r := by
  simp [balloc]

@[simp] theorem check_bfree : check hold bfree r = some r := by
  simp [bfree]

@[simp] theorem check_ialloc : check hold ialloc r = some r := by
  simp [ialloc]

@[simp] theorem check_iupdate : check hold iupdate r = some r := check_withBuf r

@[simp] theorem check_ilock : check hold ilock r = some ⟨r.locks + 1, r.op⟩ := by
  simp [ilock]

@[simp] theorem check_iunlock : check hold iunlock ⟨l + 1, o⟩ = some ⟨l, o⟩ := rfl

@[simp] theorem check_itrunc : check hold itrunc r = some r := by
  have hindirect : check hold (block [bread, star (opt bfree), brelse, bfree]) r = some r := by
    simp
  simp [itrunc, hindirect]

@[simp] theorem check_iput : check hold iput r = some r := by
  have hfree : ∀ r, check hold (block [itrunc, iupdate]) r = some r := by
    simp
  simp [iput, hfree]

@[simp] theorem check_iunlockput : check hold iunlockput ⟨l + 1, o⟩ = some ⟨l, o⟩ := by
  simp [iunlockput]

@[simp] theorem check_bmap : check hold bmap r = some r := by
  simp [bmap]

/-- Reading and writing an inode needs its lock, which a device gives up for a
while. -/
theorem check_readi {dst : Path} (hdst : ∀ r, check hold dst r = some r) :
    check hold (readi dst) ⟨l + 1, o⟩ = some ⟨l + 1, o⟩ := by
  have hblocks : check hold (block [bmap, bread, dst, brelse]) ⟨l + 1, o⟩ = some ⟨l + 1, o⟩ := by
    simp [hdst]
  simp [readi, consoleread, hblocks, hdst]

@[simp] theorem check_readi_kernel :
    check hold (readi .skip) ⟨l + 1, o⟩ = some ⟨l + 1, o⟩ :=
  check_readi l o fun _ => rfl

@[simp] theorem check_readi_user :
    check hold (readi (.act .touch)) ⟨l + 1, o⟩ = some ⟨l + 1, o⟩ :=
  check_readi l o fun _ => rfl

@[simp] theorem check_writei : check hold writei ⟨l + 1, o⟩ = some ⟨l + 1, o⟩ := by
  have hblocks : check hold (block [bmap, bread, brelse]) ⟨l + 1, o⟩ = some ⟨l + 1, o⟩ := by
    simp
  simp [writei, consolewrite, hblocks]

@[simp] theorem check_dirlookup : check hold dirlookup ⟨l + 1, o⟩ = some ⟨l + 1, o⟩ :=
  check_star (check_readi_kernel l o)

@[simp] theorem check_isdirempty : check hold isdirempty ⟨l + 1, o⟩ = some ⟨l + 1, o⟩ :=
  check_dirlookup l o

@[simp] theorem check_dirlink : check hold dirlink ⟨l + 1, o⟩ = some ⟨l + 1, o⟩ := by
  simp [dirlink]

@[simp] theorem check_namex (parent : Bool) (found failed : Path) :
    check hold (namex parent found failed) r = check hold (alt found failed) r := by
  have hwalk : check hold (block [ilock, dirlookup, iunlockput]) r = some r := by
    simp
  cases hfound : check hold found r with
  | none => cases parent <;> simp [namex, hwalk, hfound]
  | some x =>
    cases hfailed : check hold failed r with
    | none => cases parent <;> simp [namex, hwalk, hfound, hfailed]
    | some y =>
      by_cases hxy : x = y
      · cases parent <;> simp [namex, hwalk, hfound, hfailed, hxy]
      · cases parent <;> simp [namex, hwalk, hfound, hfailed, hxy]

@[simp] theorem check_namei (found failed : Path) :
    check hold (namei found failed) r = check hold (alt found failed) r :=
  check_namex r false found failed

@[simp] theorem check_nameiparent (found failed : Path) :
    check hold (nameiparent found failed) r = check hold (alt found failed) r :=
  check_namex r true found failed

@[simp] theorem check_fileclose : check hold fileclose r = some r := by
  have hinode : check hold (block [beginOp, iput, endOp]) r = some r := by
    simp
  simp [fileclose, hinode]

theorem check_create (found failed : Path) {r e : Held}
    (hfound : check hold found ⟨r.locks + 1, r.op⟩ = some e)
    (hfailed : check hold failed r = some e) :
    check hold (create found failed) r = some e := by
  have hdots : check hold (block [iupdate, dirlink, dirlink]) ⟨r.locks + 1 + 1, r.op⟩ =
      some ⟨r.locks + 1 + 1, r.op⟩ := by
    simp
  simp [create, hdots, hfound, hfailed]

theorem check_arg {n : Nat} {k : Path} {r : Held} (h : check hold k r = some r) :
    check hold (arg n k) r = some r := by
  simp [arg, h]

theorem check_fileread : check hold fileread r = some r := by
  have hinode : check hold (block [ilock, readi (.act .touch), iunlock]) r = some r := by
    simp
  have hboth : check hold (alt piperead (block [ilock, readi (.act .touch), iunlock])) r =
      some r := by
    simp only [check_alt, hinode, piperead, check_star (show check hold (.act .touch) r = some r
      from rfl), Option.bind_some, if_true]
  exact check_opt hboth

theorem check_filewrite : check hold filewrite r = some r := by
  have hchunk : check hold (block [beginOp, ilock, writei, iunlock, endOp]) r = some r := by
    simp
  exact check_opt (check_star hchunk)

theorem check_filestat : check hold filestat r = some r := by
  have hinode : check hold (block [ilock, .act .touch, iunlock]) r = some r := by
    simp
  exact check_opt hinode

theorem check_sysLink : check hold sysLink r = some r :=
  check_arg (check_arg (by simp))

theorem check_sysUnlink : check hold sysUnlink r = some r :=
  check_arg (by simp)

theorem check_create_put :
    check hold (create (block [iunlockput, endOp]) endOp) ⟨l, o + 1⟩ = some ⟨l, o⟩ :=
  check_create _ _ (by simp) (by simp)

theorem check_sysOpen : check hold sysOpen r = some r := by
  have hcreate := check_create
    (alt (block [opt fileclose, iunlockput, endOp]) (block [iunlock, endOp])) endOp
    (r := ⟨r.locks, r.op + 1⟩) (e := r) (by simp) (by simp)
  exact check_arg (check_arg (by simp [hcreate]))

@[simp] theorem hold_resetHandlers : hold .resetHandlers r = some r := rfl

theorem check_exec : check hold exec r = some r := by
  have hload : check hold (star (block [readi .skip, opt loaduvm])) ⟨r.locks + 1, r.op + 1⟩ =
      some ⟨r.locks + 1, r.op + 1⟩ := by
    refine check_star ?_
    simp [loaduvm]
  have himage : check hold (opt (.act .exec)) r = some r := check_opt rfl
  simp [exec, hload, himage]

end Balance

/-- **Every path of every system call gives back what it took.** -/
theorem sysPath_balanced (s : Sys) (r : Held) : check hold (sysPath s) r = some r := by
  cases s with
  | fork => rfl
  | exit => simp [sysPath, exit]
  | wait => rfl
  | pipe => exact check_arg (by simp)
  | read => exact check_arg (check_arg (check_arg (check_fileread r)))
  | kill => exact check_arg (check_arg rfl)
  | exec => exact check_arg (check_arg (check_opt (check_exec r)))
  | fstat => exact check_arg (check_arg (check_filestat r))
  | chdir => simp [sysPath, sysChdir]
  | dup => exact check_arg rfl
  | getpid => rfl
  | sbrk => exact check_arg (check_opt rfl)
  | sleep => exact check_arg rfl
  | uptime => rfl
  | «open» => exact check_sysOpen r
  | write => exact check_arg (check_arg (check_arg (check_filewrite r)))
  | mknod => simp [sysPath, sysMknod, check_create_put]
  | unlink => exact check_sysUnlink r
  | link => exact check_sysLink r
  | mkdir => simp [sysPath, sysMkdir, check_create_put]
  | close => exact check_arg (check_fileclose r)
  | sigprocmask => exact check_arg rfl
  | signal => exact check_arg (check_arg rfl)
  | sigret => rfl

theorem forkretFirst_balanced (r : Held) : check hold forkretFirst r = some r := by
  simp [forkretFirst, iinit, initlog, recoverFromLog, readHead]

/-! ## Arguments come before writes -/

def Act.isArgint : Act → Bool
  | .argint _ => true
  | _ => false

/-- The actions after which an argument could read differently. -/
def Act.isWrite : Act → Bool
  | .touch | .exec | .sigret => true
  | _ => false

/-- **Every path of every system call fetches its arguments first.** -/
theorem sysPath_orderly (s : Sys) : orderly Act.isArgint Act.isWrite (sysPath s) = true := by
  cases s <;> decide

end Xv6
