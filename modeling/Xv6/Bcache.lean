import Mathlib
import Xv6.IdeQueue
import Xv6.LinkedRing

/- The buffer cache (bio.c), its disk driver (ide.c) and `log_write` (log.c).

   Any number of processes call `bread`, `bwrite`, `log_write` and `brelse` and change
   the data of buffers, and the disk carries out the driver's requests. A step is a
   critical section of `bcache.lock`, `idelock`, `log.lock` or of a buffer's sleep
   lock, or one test or store outside of them.

   1. The list of buffers as `binit`, `bget` and `brelse` link it (`LinkedRing`).
   2. The four calls with their places in between (`Pc`), the queue of requests and
      the drive (`ideintr`, `driveStep`).
   3. What the callers keep to (`Disciplined`) and the state the cache starts from.

   History, which no code looks at: `assigned` and `changed` of a buffer, `last`, and
   in `Pc.user` what the last `bread` returned.

   `sleep` in `acquiresleep` and `iderw` is a wait for the condition of its loop.
   `refcnt` counts at most two references of a process (it may wait for a buffer that
   it holds itself), far from where a `uint` wraps. Interrupts come when a command is
   done, and no command fails. `begin_op`, `end_op` and `commit` change the fields of
   `log` that `log_write` reads: they may do so at any time and in any way.

   Correspondence (C ↔ Lean):
     `bcache.head`, `prev`, `next`     ↔ `none : Option BufId`, `Cache.links`
     `b->flags`, `b->lock`             ↔ `Buf.valid`, `Buf.dirty`, `Buf.lock`
     `bget`, `bread`                   ↔ `bget`, `Pc.bget` .. `Pc.test`
     `bwrite`, `log_write`, `brelse`   ↔ `bwrite`, `logWrite`, `brelse`, `brelseList`
     `iderw`, `idestart`, `ideintr`    ↔ `iderw`, `idestart`, `ideintr`
     `idequeue`, `havedisk1`           ↔ `Cache.queue`, `Cache.havedisk1` -/
namespace Xv6.Bcache
open Function Bits Log LinkedRing Transition

def NBUF : Nat := 30

abbrev BufId := Fin NBUF

instance : NeZero NBUF := ⟨by decide⟩

/-- `struct buf`, less its links. -/
structure Buf (n : Nat) extends Ide.Buf where
  /-- The process that has locked it, if any. -/
  lock : Option (Fin n)
  refcnt : Nat
  /-- `bget` has returned it at least once. -/
  assigned : Bool
  /-- Its data has changed since it was last passed to `log_write` or `bwrite`. -/
  changed : Bool

inductive Drive where
  | idle
  | reading (drive sector : Word)
  | writing (drive sector : Word) (data : Blk)
  | done (port : Option Blk)

inductive Caller where
  | bread (dev blockno : Word)
  | bwrite
  deriving DecidableEq

inductive Pc where
  /-- In no function of the cache; with what it asked `bread` for and got, if that was
  the last thing it did. -/
  | user (got : Option (Word × Word × BufId))
  /-- In `bget`, at `acquire(&bcache.lock)`. -/
  | bget (dev blockno : Word)
  /-- In `bget`, at `acquiresleep(&b->lock)`. -/
  | acquiresleep (dev blockno : Word) (b : BufId)
  | test (dev blockno : Word) (b : BufId)
  /-- At the start of `iderw`, and in its loop. -/
  | iderw (k : Caller) (b : BufId)
  | await (k : Caller) (b : BufId)
  /-- In `brelse`, at `acquire(&bcache.lock)`. -/
  | brelse (b : BufId)
  deriving DecidableEq

/-- The fields of `log` that `log_write` uses. -/
structure LogFields where
  n : Nat
  block : Nat → Word
  size : Nat
  outstanding : Nat

structure Cache (n : Nat) where
  links : Links BufId
  buf : BufId → Buf n
  pc : Fin n → Pc
  queue : List BufId
  drive : Drive
  /-- The drives, by number, and their sectors. -/
  disk : Word → Word → Blk
  havedisk1 : Bool
  log : LogFields
  /-- The data last written to each block, in its buffer. -/
  last : Word → Word → Blk

inductive Panic where
  /-- `bget: no buffers` -/
  | noBuffers
  /-- `bwrite` -/
  | bwrite
  /-- `brelse` -/
  | brelse
  | ide (m : Ide.Panic)
  /-- `too big a transaction` -/
  | tooBig
  /-- `log_write outside of trans` -/
  | outside
  deriving DecidableEq

/-- Why there is no next state: the step has to wait, or the kernel panics. -/
inductive Stop where
  | wait
  | panic (m : Panic)
  deriving DecidableEq

variable {n : Nat}

namespace Cache

def setBuf (s : Cache n) (b : BufId) (x : Buf n) : Cache n := { s with buf := update s.buf b x }

def goto (s : Cache n) (i : Fin n) (k : Pc) : Cache n := { s with pc := update s.pc i k }

/-- The block of the disk that the driver reads and writes for `dev` and `blockno`. -/
def onDisk (s : Cache n) (dev blockno : Word) : Blk := s.disk (dev &&& 1#32) blockno

end Cache

def store (blocks : Word → Word → Blk) (dev blockno : Word) (data : Blk) : Word → Word → Blk :=
  update blocks dev (update (blocks dev) blockno data)

theorem store_self (blocks : Word → Word → Blk) (dev blockno : Word) (data : Blk) :
    store blocks dev blockno data dev blockno = data := by
  simp [store]

theorem store_of_ne (blocks : Word → Word → Blk) {dev blockno dev' blockno' : Word} (data : Blk)
    (h : ¬(dev' = dev ∧ blockno' = blockno)) :
    store blocks dev blockno data dev' blockno' = blocks dev' blockno' := by
  by_cases hd : dev' = dev
  · subst hd
    have hb : blockno' ≠ blockno := fun hb => h ⟨rfl, hb⟩
    simp [store, hb]
  · simp [store, hd]

/-! ## bio.c -/

/-- The list after `binit`. -/
def binitLinks : Links BufId :=
  (List.finRange NBUF).foldl (fun L b => L.pushFront b) ⟨fun _ => none, fun _ => none⟩

/-- The critical section of `bget`: the block's buffer, or one to recycle. -/
def bget (s : Cache n) (dev blockno : Word) : Except Stop (BufId × Cache n) :=
  match walk s.links.next (fun b => (s.buf b).dev = dev ∧ (s.buf b).blockno = blockno) (NBUF + 1)
      (s.links.next none) with
  | none => .error .wait
  | some (some b) =>
    .ok (b, s.setBuf b { s.buf b with refcnt := (s.buf b).refcnt + 1, assigned := true })
  | some none =>
    match walk s.links.prev (fun b => (s.buf b).refcnt = 0 ∧ (s.buf b).dirty = false) (NBUF + 1)
        (s.links.prev none) with
    | none => .error .wait
    | some (some b) =>
      .ok (b, s.setBuf b { s.buf b with
        dev, blockno, valid := false, dirty := false, refcnt := 1, assigned := true })
    | some none => .error (.panic .noBuffers)

/-- `bwrite`, up to its call of `iderw`. -/
def bwrite (s : Cache n) (b : BufId) : Except Stop (Cache n) :=
  if (s.buf b).lock = none then .error (.panic .bwrite)
  else .ok (s.setBuf b { s.buf b with dirty := true, changed := false })

/-- `brelse`, up to `releasesleep`. -/
def brelse (s : Cache n) (b : BufId) : Except Stop (Cache n) :=
  if (s.buf b).lock = none then .error (.panic .brelse)
  else .ok (s.setBuf b { s.buf b with lock := none })

/-- The critical section of `brelse`. -/
def brelseList (s : Cache n) (b : BufId) : Cache n :=
  let x := { s.buf b with refcnt := (s.buf b).refcnt - 1 }
  { s.setBuf b x with
    links := if x.refcnt = 0 then (s.links.unlink b).pushFront b else s.links }

/-! ## ide.c -/

def idestart (s : Cache n) (b : BufId) : Except Stop (Cache n) :=
  if FSSIZE ≤ (s.buf b).blockno.toNat then .error (.panic (.ide .incorrectBlockno))
  else if (s.buf b).dirty then
    .ok { s with drive := .writing ((s.buf b).dev &&& 1#32) (s.buf b).blockno (s.buf b).data }
  else .ok { s with drive := .reading ((s.buf b).dev &&& 1#32) (s.buf b).blockno }

/-- `iderw`, up to its loop. -/
def iderw (s : Cache n) (b : BufId) : Except Stop (Cache n) :=
  if (s.buf b).lock = none then .error (.panic (.ide .notLocked))
  else if (s.buf b).valid ∧ (s.buf b).dirty = false then .error (.panic (.ide .nothingToDo))
  else if (s.buf b).dev ≠ 0 ∧ s.havedisk1 = false then .error (.panic (.ide .noDisk1))
  else
    let s := { s with queue := s.queue ++ [b] }
    if s.queue.head? = some b then idestart s b else .ok s

/-- The drive carries out its command. -/
def driveStep (s : Cache n) : Except Stop (Cache n) :=
  match s.drive with
  | .reading d sector => .ok { s with drive := .done (some (s.disk d sector)) }
  | .writing d sector data =>
    .ok { s with
      drive := .done none
      disk := store s.disk d sector data }
  | _ => .error .wait

/-- The handler, once the drive is done. -/
def ideintr (s : Cache n) : Except Stop (Cache n) :=
  match s.drive, s.queue with
  | .done _, [] => .ok { s with drive := .idle }
  | .done port, b :: queue =>
    let data := if (s.buf b).dirty then (s.buf b).data else port.getD (s.buf b).data
    let s := { s.setBuf b { s.buf b with data, valid := true, dirty := false } with
      queue, drive := .idle }
    match queue with
    | [] => .ok s
    | c :: _ => idestart s c
  | _, _ => .error .wait

/-! ## log.c -/

def logWrite (s : Cache n) (b : BufId) : Except Stop (Cache n) :=
  if LOGSIZE ≤ s.log.n ∨ s.log.size ≤ s.log.n + 1 then .error (.panic .tooBig)
  else if s.log.outstanding < 1 then .error (.panic .outside)
  else
    -- the first entry with this block, or the first free one
    let i := ((List.range s.log.n).find? fun i => s.log.block i = (s.buf b).blockno).getD s.log.n
    let log := { s.log with
      block := update s.log.block i (s.buf b).blockno
      n := if i = s.log.n then s.log.n + 1 else s.log.n }
    .ok { s.setBuf b { s.buf b with dirty := true, changed := false } with log }

/-! ## The system -/

inductive Call where
  | bread (dev blockno : Word)
  | bwrite (b : BufId)
  | logWrite (b : BufId)
  | brelse (b : BufId)
  | change (b : BufId) (data : Blk)

inductive Label (n : Nat) where
  | call (i : Fin n) (c : Call)
  | go (i : Fin n)
  | drive
  | ideintr
  /-- `begin_op`, `end_op` or `commit` changes the fields of `log`. -/
  | log (l : LogFields)

def change (s : Cache n) (b : BufId) (data : Blk) : Cache n :=
  let x := s.buf b
  { s.setBuf b { x with data, changed := true } with
    last := store s.last x.dev x.blockno data }

def callStep (s : Cache n) (i : Fin n) : Call → Except Stop (Cache n)
  | .bread dev blockno => .ok (s.goto i (.bget dev blockno))
  | .bwrite b => (bwrite s b).map fun s => s.goto i (.iderw .bwrite b)
  | .logWrite b => (logWrite s b).map fun s => s.goto i (.user none)
  | .brelse b => (brelse s b).map fun s => s.goto i (.brelse b)
  | .change b data => .ok ((change s b data).goto i (.user none))

/-- What `iderw` returns to. -/
def Caller.back (b : BufId) : Caller → Pc
  | .bread dev blockno => .user (some (dev, blockno, b))
  | .bwrite => .user none

def goStep (s : Cache n) (i : Fin n) : Pc → Except Stop (Cache n)
  | .user _ => .error .wait
  | .bget dev blockno =>
    (bget s dev blockno).map fun (b, s) => s.goto i (.acquiresleep dev blockno b)
  | .acquiresleep dev blockno b =>
    if (s.buf b).lock = none then
      .ok ((s.setBuf b { s.buf b with lock := some i }).goto i (.test dev blockno b))
    else .error .wait
  | .test dev blockno b =>
    if (s.buf b).valid then .ok (s.goto i (.user (some (dev, blockno, b))))
    else .ok (s.goto i (.iderw (.bread dev blockno) b))
  | .iderw k b => (iderw s b).map fun s => s.goto i (.await k b)
  | .await k b =>
    if (s.buf b).valid ∧ (s.buf b).dirty = false then .ok (s.goto i (k.back b))
    else .error .wait
  | .brelse b => .ok ((brelseList s b).goto i (.user none))

def exec (s : Cache n) : Label n → Except Stop (Cache n)
  | .call i c =>
    match s.pc i with
    | .user _ => callStep s i c
    | _ => .error .wait
  | .go i => goStep s i (s.pc i)
  | .drive => driveStep s
  | .ideintr => ideintr s
  | .log l => .ok { s with log := l }

def step (s : Cache n) (l : Label n) : Option (Cache n) := (exec s l).toOption

def zeroBuf : Buf n where
  valid := false
  dirty := false
  dev := 0
  blockno := 0
  lock := none
  refcnt := 0
  data := fun _ => 0
  assigned := false
  changed := false

def start (disk : Word → Word → Blk) (havedisk1 : Bool) (log : LogFields) : Cache n where
  links := binitLinks
  buf := fun _ => zeroBuf
  pc := fun _ => .user none
  queue := []
  drive := .idle
  disk
  havedisk1
  log
  last := fun dev => disk (dev &&& 1#32)

/-- A process uses only buffers that it has locked, and it passes a buffer that it has
changed to `log_write` or `bwrite` before it releases it. -/
def Disciplined (s : Cache n) : Label n → Prop
  | .call i (.bwrite b) | .call i (.logWrite b) | .call i (.change b _) => (s.buf b).lock = some i
  | .call i (.brelse b) => (s.buf b).lock = some i ∧ (s.buf b).changed = false
  | _ => True

/-- `dev` is the number of one of the two drives. -/
def TwoDrives : Label n → Prop
  | .call _ (.bread dev _) => dev.toNat < 2
  | _ => True

instance (s : Cache n) : (l : Label n) → Decidable (Disciplined s l)
  | .call i (.bwrite b) | .call i (.logWrite b) | .call i (.change b _) =>
    inferInstanceAs (Decidable ((s.buf b).lock = some i))
  | .call i (.brelse b) =>
    inferInstanceAs (Decidable ((s.buf b).lock = some i ∧ (s.buf b).changed = false))
  | .call _ (.bread ..) | .go _ | .drive | .ideintr | .log _ => isTrue trivial

instance : (l : Label n) → Decidable (TwoDrives l)
  | .call _ (.bread dev _) => inferInstanceAs (Decidable (dev.toNat < 2))
  | .call _ (.bwrite _) | .call _ (.logWrite _) | .call _ (.change ..) | .call _ (.brelse _)
  | .go _ | .drive | .ideintr | .log _ => isTrue trivial

/-! ## What the cache is to guarantee -/

/-- The processes that have locked the buffer in `bget` and not yet given up their
reference in `brelse`. -/
def holders (s : Cache n) (b : BufId) : Finset (Fin n) :=
  Finset.univ.filter fun i => (s.buf b).lock = some i ∨ s.pc i = .brelse b

/-- `bget` has given the process the buffer, and it has not locked it yet. -/
def Pc.waitsFor (b : BufId) : Pc → Bool
  | .acquiresleep _ _ c => c = b
  | _ => false

def waiters (s : Cache n) (b : BufId) : Finset (Fin n) :=
  Finset.univ.filter fun i => (s.pc i).waitsFor b

structure Coherent (s : Cache n) : Prop where
  /-- The links form one circular list with every buffer in it once. -/
  ring : ∃ l, IsRing s.links l ∧ ∀ b, b ∈ l
  unique : ∀ b c, (s.buf b).assigned → (s.buf c).assigned → (s.buf b).dev = (s.buf c).dev →
    (s.buf b).blockno = (s.buf c).blockno → b = c
  refcnt : ∀ b, (s.buf b).refcnt = (holders s b).card + (waiters s b).card
  clean : ∀ b, (s.buf b).lock = none → (s.buf b).valid → (s.buf b).dirty = false →
    (s.buf b).data = s.onDisk (s.buf b).dev (s.buf b).blockno
  /-- `bread` returns the block's buffer, locked, with the data last written to the block. -/
  read : ∀ i dev blockno b, s.pc i = .user (some (dev, blockno, b)) →
    (s.buf b).lock = some i ∧ (s.buf b).dev = dev ∧ (s.buf b).blockno = blockno ∧
      (s.buf b).data = s.last dev blockno

/-- A buffer that is in use or dirty keeps its block. -/
def Kept (s s' : Cache n) : Prop :=
  ∀ b, 0 < (s.buf b).refcnt ∨ (s.buf b).dirty →
    (s'.buf b).dev = (s.buf b).dev ∧ (s'.buf b).blockno = (s.buf b).blockno

end Xv6.Bcache
