import Xv6.LinkedQueue
import Xv6.LogCommit
import Xv6.Transition

/- The queue of the disk driver (ide.c).

   Any number of processes call `iderw`, each on a buffer that it has locked, and the drive
   interrupts. A step is a critical section of `idelock`, or what a process does with a buffer
   outside of one: take and release its lock, recycle it, change it, or make the tests at the head of
   `iderw`. A command that `idestart` gives to the drive is in progress until the handler runs
   for it; the drive interrupts once for each, and may also interrupt when the queue is empty. It may fail
   a read.

   History, which no code looks at: the buffers as they are appended, as their commands are started
   and as they are completed, and of each call how many were appended before it.

   1. What the two sides do with the links (`LinkedQueue`), the buffers and the drive.
   2. `queue_served_in_order`: in every run the head of the queue is the command in progress, commands
      are started once each in the order of the requests, and a call returns when its own is completed.

   Correspondence (C ↔ Lean):
     `idequeue`, `qnext`               ↔ `State.link none`, `State.link (some b)`
     `b->flags`                        ↔ `Buf.valid`, `Buf.dirty`
     `outb`, `outsl` in `idestart`     ↔ `Buf.command`
     `iderw`, up to `acquire`          ↔ `iderw`
     the rest of `iderw`               ↔ `append`, `waitLoop` -/
namespace Xv6.Ide
open Function List Bits Log LinkedQueue Transition

/-- `struct buf`, as far as the driver uses it. -/
structure Buf where
  /-- `B_VALID` and `B_DIRTY` in `flags`. -/
  valid : Bool
  dirty : Bool
  dev : Word
  blockno : Word
  data : Blk

/-- `(b->flags & (B_VALID|B_DIRTY)) == B_VALID` -/
def Buf.Done (x : Buf) : Prop := x.valid = true ∧ x.dirty = false

instance (x : Buf) : Decidable x.Done := inferInstanceAs (Decidable (_ ∧ _))

/-- What the drive is told to do: with data to write, or none to read. -/
structure Command where
  drive : Word
  sector : Word
  data : Option Blk

/-- A block is one sector. -/
def Buf.command (x : Buf) : Command := ⟨x.dev &&& 1#32, x.blockno, if x.dirty then some x.data else none⟩

inductive Task (β : Type) where
  | idle
  | enter (b : β)
  /-- Asleep in `iderw`, with `t` requests before its own. -/
  | await (b : β) (t : Nat) (awake : Bool)

def Task.buf {β : Type} : Task β → Option β
  | .idle => none
  | .enter b => some b
  | .await b _ _ => some b

inductive Panic where
  /-- `incorrect blockno` -/
  | incorrectBlockno
  /-- `iderw: buf not locked` -/
  | notLocked
  /-- `iderw: nothing to do` -/
  | nothingToDo
  /-- `iderw: ide disk 1 not present` -/
  | noDisk1
  deriving DecidableEq

inductive Stop where
  | wait
  | panic (m : Panic)
  /-- The loop over the queue does not end. -/
  | diverges
  deriving DecidableEq

structure State (ρ β : Type) where
  buf : β → Buf
  lock : β → Option ρ
  link : Option β → Option β
  task : ρ → Task β
  drive : List Command
  havedisk1 : Bool
  appended : List β
  started : List β
  completed : List β
  /-- The call that has returned in the last step, its buffer and its number. -/
  ret : Option (ρ × β × Nat)

variable {ρ β : Type}

section

variable [DecidableEq ρ] [DecidableEq β]

/-! ## ide.c -/

def idestart (s : State ρ β) (b : β) : Except Stop (State ρ β) :=
  if FSSIZE ≤ (s.buf b).blockno.toNat then .error (.panic .incorrectBlockno)
  else .ok { s with drive := s.drive ++ [(s.buf b).command], started := s.started ++ [b] }

/-- `wakeup(b)` -/
def Task.wakeup (b : β) : Task β → Task β
  | .await c t awake => .await c t (awake || decide (c = b))
  | t => t

/-- The handler. `port` is what the drive has for a read that has not failed. -/
def ideintr (s : State ρ β) (port : Option Blk) : Except Stop (State ρ β) :=
  let s := { s with drive := s.drive.tail, ret := none }
  match s.link none with
  | none => .ok s
  | some b =>
    let x := s.buf b
    let s := { s with
      link := update s.link none (s.link (some b))
      buf := update s.buf b
        { x with data := if x.dirty then x.data else port.getD x.data, valid := true, dirty := false }
      task := Task.wakeup b ∘ s.task
      completed := s.completed ++ [b] }
    match s.link none with
    | none => .ok s
    | some c => idestart s c

def iderw (s : State ρ β) (q : ρ) (b : β) : Except Stop (State ρ β) :=
  if s.lock b = none then .error (.panic .notLocked)
  else if (s.buf b).Done then .error (.panic .nothingToDo)
  else if (s.buf b).dev ≠ 0 ∧ s.havedisk1 = false then .error (.panic .noDisk1)
  else .ok { s with task := update s.task q (.enter b), ret := none }

/-- The test of the loop in `iderw`, and what follows. -/
def waitLoop (s : State ρ β) (q : ρ) (b : β) (t : Nat) : State ρ β :=
  if (s.buf b).Done then { s with task := update s.task q .idle, ret := some (q, b, t) }
  else { s with task := update s.task q (.await b t false), ret := none }

def append [Fintype β] (s : State ρ β) (q : ρ) (b : β) : Except Stop (State ρ β) :=
  let t := s.appended.length
  let link := update s.link (some b) none
  match lastLink link (Fintype.card β + 1) none with
  | none => .error .diverges
  | some pp =>
    let s := { s with link := update link pp (some b), appended := s.appended ++ [b] }
    if s.link none = some b then (idestart s b).map fun s => waitLoop s q b t else .ok (waitLoop s q b t)

/-! ## Steps -/

inductive Label (ρ β : Type) where
  /-- `acquiresleep` and `releasesleep`. -/
  | lock (q : ρ) (b : β)
  | unlock (q : ρ) (b : β)
  /-- `bget` uses a buffer for another block. -/
  | recycle (b : β) (dev blockno : Word)
  /-- A process stores to its buffer, and may set `B_DIRTY`. -/
  | change (q : ρ) (b : β) (data : Blk) (dirty : Bool)
  | iderw (q : ρ) (b : β)
  | go (q : ρ)
  | intr (port : Option Blk)

def exec [Fintype β] (s : State ρ β) : Label ρ β → Except Stop (State ρ β)
  | .lock q b =>
    if (s.task q).buf = none ∧ s.lock b = none then
      .ok { s with lock := update s.lock b (some q), ret := none }
    else .error .wait
  | .unlock q b =>
    if (s.task q).buf = none ∧ s.lock b = some q then .ok { s with lock := update s.lock b none, ret := none }
    else .error .wait
  | .recycle b dev blockno =>
    if s.lock b = none then
      .ok { s with
        buf := update s.buf b { s.buf b with dev, blockno, valid := false, dirty := false }
        ret := none }
    else .error .wait
  | .change q b data dirty =>
    if (s.task q).buf = none ∧ s.lock b = some q then
      .ok { s with
        buf := update s.buf b { s.buf b with data, dirty := (s.buf b).dirty || dirty }
        ret := none }
    else .error .wait
  | .iderw q b =>
    -- A process calls it for a buffer that it has locked, or that nobody has.
    if (s.task q).buf = none ∧ (s.lock b = some q ∨ s.lock b = none) then iderw s q b else .error .wait
  | .go q =>
    match s.task q with
    | .enter b => append s q b
    | .await b t true => .ok (waitLoop s q b t)
    | _ => .error .wait
  | .intr port => if s.drive ≠ [] ∨ s.link none = none then ideintr s port else .error .wait

def step [Fintype β] (s : State ρ β) (l : Label ρ β) : Option (State ρ β) := (exec s l).toOption

/-- After `ideinit`, with any data in the buffers and in their links. -/
def start (buf : β → Buf) (qnext : β → Option β) (havedisk1 : Bool) : State ρ β where
  buf
  lock := fun _ => none
  link := fun x => x.elim none qnext
  task := fun _ => .idle
  drive := []
  havedisk1
  appended := []
  started := []
  completed := []
  ret := none

end

/-! ## The queue -/

/-- How far a call has come. -/
def Stage (s : State ρ β) (queue : List β) : Task β → Prop
  | .idle => True
  | .enter b => b ∉ queue ∧ ¬(s.buf b).Done
  | .await b t _ => s.appended[t]? = some b ∧
      (b ∈ queue ∧ ¬(s.buf b).Done ∧ s.completed.length ≤ t ∨ b ∉ queue ∧ (s.buf b).Done ∧ t < s.completed.length)

structure Inv (s : State ρ β) (queue : List β) : Prop where
  chain : Chain s.link none queue
  drive : s.drive = (queue.head?.map fun b => (s.buf b).command).toList
  appended : s.appended = s.completed ++ queue
  started : s.started = s.completed ++ queue.head?.toList
  /-- Who is in a call on a buffer has locked it. -/
  locked : ∀ q b, (s.task q).buf = some b → s.lock b = some q
  stage : ∀ q, Stage s queue (s.task q)
  /-- Who has made a request is waiting for it. -/
  waits : ∀ b ∈ queue, ∃ q, (s.task q).buf = some b
  ret : ∀ q b t, s.ret = some (q, b, t) →
    s.completed[t]? = some b ∧ b ∉ queue ∧ (s.buf b).valid = true ∧ (s.buf b).dirty = false

variable {s s' : State ρ β} {queue : List β} {q : ρ} {b : β}

theorem Stage.congr {t : Task β} (h : Stage s queue t) (hbuf : ∀ b, t.buf = some b → s'.buf b = s.buf b)
    (happended : s'.appended = s.appended) (hcompleted : s'.completed = s.completed) : Stage s' queue t := by
  cases t with
  | idle => trivial
  | enter b =>
    rw [Stage, hbuf b rfl]
    exact h
  | await b t awake =>
    rw [Stage, hbuf b rfl, happended, hcompleted]
    exact h

def Unused (s : State ρ β) (b : β) : Prop := ∀ q, (s.task q).buf ≠ some b

theorem Inv.unused_of_unlocked (hs : Inv s queue) (h : s.lock b = none) : Unused s b := by
  intro q hq
  cases h.symm.trans (hs.locked q b hq)

theorem Inv.unused_of_held (hs : Inv s queue) (hq : (s.task q).buf = none) (h : s.lock b = some q) : Unused s b := by
  intro q' hq'
  cases h.symm.trans (hs.locked q' b hq')
  cases hq.symm.trans hq'

theorem Inv.not_mem (hs : Inv s queue) (h : Unused s b) : b ∉ queue := by
  intro hb
  obtain ⟨q, hq⟩ := hs.waits b hb
  exact h q hq

theorem idestart_eq (h : idestart s b = .ok s') :
    s' = { s with drive := s.drive ++ [(s.buf b).command], started := s.started ++ [b] } := by
  unfold idestart at h
  split at h
  · cases h
  · exact (Except.ok.inj h).symm

theorem start_inv (buf : β → Buf) (qnext : β → Option β) (havedisk1 : Bool) :
    Inv (start buf qnext havedisk1 : State ρ β) [] where
  chain := rfl
  drive := rfl
  appended := rfl
  started := rfl
  locked := nofun
  stage := fun _ => trivial
  waits := nofun
  ret := nofun

/-! ## Buffers and links -/

section

variable [DecidableEq β]

theorem command_update (hb : b ∉ queue) (x : Buf) :
    (queue.head?.map fun c => (update s.buf b x c).command) = queue.head?.map fun c => (s.buf c).command := by
  cases queue with
  | nil => rfl
  | cons c queue =>
    have hne : c ≠ b := by
      rintro rfl
      exact hb (mem_cons_self ..)
    rw [List.head?_cons, Option.map_some, Option.map_some, update_of_ne hne]

theorem Inv.setBuf (hs : Inv s queue) (hb : Unused s b) (x : Buf) :
    Inv { s with buf := update s.buf b x, ret := none } queue where
  chain := hs.chain
  drive := by
    rw [command_update (hs.not_mem hb)]
    exact hs.drive
  appended := hs.appended
  started := hs.started
  locked := hs.locked
  stage q := by
    refine (hs.stage q).congr (fun c hc => update_of_ne ?_ ..) rfl rfl
    rintro rfl
    exact hb q hc
  waits := hs.waits
  ret := nofun

theorem Inv.setLock (hs : Inv s queue) (hb : Unused s b) (x : Option ρ) :
    Inv { s with lock := update s.lock b x, ret := none } queue where
  chain := hs.chain
  drive := hs.drive
  appended := hs.appended
  started := hs.started
  locked q c hc := by
    have hne : c ≠ b := by
      rintro rfl
      exact hb q hc
    exact (update_of_ne hne ..).trans (hs.locked q c hc)
  stage := hs.stage
  waits := hs.waits
  ret := nofun

/-- What the links are after a request is appended, and that the loop that finds the end of the queue ends. -/
theorem Inv.append_link [Fintype β] (hs : Inv s queue) (hb : b ∉ queue) :
    ∃ pp, lastLink (update s.link (some b) none) (Fintype.card β + 1) none = some pp ∧
      Chain (update (update s.link (some b) none) pp (some b)) none (queue ++ [b]) := by
  have hchain : Chain (update s.link (some b) none) none queue := by
    refine hs.chain.congr (update_of_ne (Option.some_ne_none b).symm ..) fun c hc => update_of_ne ?_ ..
    rintro ⟨⟩
    exact hb hc
  exact ⟨last none queue, hchain.lastLink_eq hchain.length_lt,
    hchain.snoc (fun _ _ => by rintro ⟨⟩) hb (by rintro ⟨⟩) (update_self ..)⟩

end

/-! ## The two sides of iderw -/

section

variable [DecidableEq ρ]

/-- A process goes on with its call, begins one, or returns from one. -/
theorem Inv.goto (hs : Inv s queue) {t : Task β} {r : Option (ρ × β × Nat)}
    (hlock : ∀ b, t.buf = some b → s.lock b = some q) (hstage : Stage s queue t)
    (hkeep : ∀ b ∈ queue, (s.task q).buf = some b → t.buf = some b) (hret : ∀ q b t, r = some (q, b, t) →
      s.completed[t]? = some b ∧ b ∉ queue ∧ (s.buf b).valid = true ∧ (s.buf b).dirty = false) :
    Inv { s with task := update s.task q t, ret := r } queue where
  chain := hs.chain
  drive := hs.drive
  appended := hs.appended
  started := hs.started
  locked q' b := by
    dsimp only
    rw [update_apply]
    split
    · next heq => exact fun h => heq ▸ hlock b h
    · exact hs.locked q' b
  stage q' := by
    dsimp only
    rw [update_apply]
    split
    · exact hstage
    · exact hs.stage q'
  waits b hb := by
    obtain ⟨q', hq'⟩ := hs.waits b hb
    refine ⟨q', ?_⟩
    dsimp only
    rw [update_apply]
    split
    · next heq => exact hkeep b hb (heq ▸ hq')
    · exact hq'
  ret := hret

theorem Inv.iderw (hs : Inv s queue) (hq : (s.task q).buf = none) (hlock : s.lock b = some q)
    (hstep : iderw s q b = .ok s') : Inv s' queue := by
  unfold Ide.iderw at hstep
  rw [if_neg (by rw [hlock]; exact Option.some_ne_none q)] at hstep
  split at hstep
  · cases hstep
  · next hdone =>
    split at hstep
    · cases hstep
    · cases hstep
      refine hs.goto ?_ ⟨hs.not_mem (hs.unused_of_held hq hlock), hdone⟩ ?_ nofun
      · rintro c ⟨⟩
        exact hlock
      · intro c _ hc
        cases hq.symm.trans hc

theorem waitLoop_eq {t : Nat} (h : ¬(s.buf b).Done) :
    waitLoop s q b t = { s with task := update s.task q (.await b t false), ret := none } := if_neg h

theorem Inv.waitLoop (hs : Inv s queue) {t : Nat} {awake : Bool} (hq : s.task q = .await b t awake) :
    Inv (waitLoop s q b t) queue := by
  have hbuf : (s.task q).buf = some b := by rw [hq]; rfl
  have hlock := hs.locked q b hbuf
  have hstage := hs.stage q
  rw [hq] at hstage
  unfold Ide.waitLoop
  split
  · next hdone =>
    obtain ⟨hb, ⟨-, hnot, -⟩ | ⟨hout, -, ht⟩⟩ := hstage
    · exact absurd hdone hnot
    refine hs.goto nofun trivial ?_ ?_
    · intro c hc hbuf'
      cases hbuf.symm.trans hbuf'
      exact absurd hc hout
    · rintro _ _ _ ⟨⟩
      rw [hs.appended, List.getElem?_append_left ht] at hb
      exact ⟨hb, hout, hdone⟩
  · refine hs.goto ?_ hstage ?_ nofun
    · rintro c ⟨⟩
      exact hlock
    · exact fun c _ hc => hbuf.symm.trans hc

/-- The state after a request is appended to the queue, with what `idestart` may have added. -/
def appendState (s : State ρ β) (q : ρ) (b : β) (link : Option β → Option β) (drive : List Command)
    (started : List β) : State ρ β :=
  { s with
    link, drive, started
    appended := s.appended ++ [b]
    task := update s.task q (.await b s.appended.length false)
    ret := none }

theorem Stage.append {t : Task β} (h : Stage s queue t) (hb : t.buf ≠ some b) {link : Option β → Option β}
    {drive : List Command} {started : List β} : Stage (appendState s q b link drive started) (queue ++ [b]) t := by
  have hmem : ∀ c, t.buf = some c → (c ∈ queue ++ [b] ↔ c ∈ queue) := by
    intro c hc
    rw [mem_append, mem_singleton, or_iff_left]
    rintro rfl
    exact hb hc
  cases t with
  | idle => trivial
  | enter c =>
    rw [Stage, hmem c rfl]
    exact h
  | await c t awake =>
    rw [Stage, hmem c rfl]
    refine ⟨?_, h.2⟩
    have ht : t < s.appended.length := (List.getElem?_eq_some_iff.mp h.1).1
    exact (List.getElem?_append_left ht).trans h.1

variable [DecidableEq β]

theorem Inv.append_eq [Fintype β] (hs : Inv s queue) (hq : s.task q = .enter b) (hstep : append s q b = .ok s') :
    ∃ link, Chain link none (queue ++ [b]) ∧
      (queue = [] ∧ s' = appendState s q b link (s.drive ++ [(s.buf b).command]) (s.started ++ [b]) ∨
        queue ≠ [] ∧ s' = appendState s q b link s.drive s.started) := by
  have hstage := hs.stage q
  rw [hq] at hstage
  obtain ⟨hb, hdone⟩ := hstage
  obtain ⟨pp, hpp, hchain⟩ := hs.append_link hb
  unfold append at hstep
  dsimp only at hstep
  rw [hpp] at hstep
  dsimp only at hstep
  refine ⟨_, hchain, ?_⟩
  have hhead := hchain.head
  cases queue with
  | nil =>
    left
    rw [nil_append, List.head?_cons] at hhead
    rw [if_pos hhead] at hstep
    cases hstart : idestart _ b with
    | error e =>
      rw [hstart] at hstep
      cases hstep
    | ok t =>
      rw [hstart] at hstep
      cases hstep
      rw [idestart_eq hstart]
      exact ⟨rfl, waitLoop_eq hdone⟩
  | cons c queue =>
    right
    rw [if_neg] at hstep
    · cases hstep
      exact ⟨cons_ne_nil c queue, waitLoop_eq hdone⟩
    · rw [hhead]
      rintro ⟨⟩
      exact hb (mem_cons_self ..)

theorem Inv.appendState (hs : Inv s queue) (hq : s.task q = .enter b) {link : Option β → Option β}
    {drive : List Command} {started : List β} (hchain : Chain link none (queue ++ [b]))
    (hdrive : drive = ((queue ++ [b]).head?.map fun c => (s.buf c).command).toList)
    (hstarted : started = s.completed ++ (queue ++ [b]).head?.toList) :
    Inv (appendState s q b link drive started) (queue ++ [b]) := by
  have hbuf : (s.task q).buf = some b := by rw [hq]; rfl
  have hlock := hs.locked q b hbuf
  have hstage := hs.stage q
  rw [hq] at hstage
  refine ⟨hchain, hdrive, ?_, hstarted, ?_, ?_, ?_, nofun⟩
  · change s.appended ++ [b] = s.completed ++ (queue ++ [b])
    rw [hs.appended, append_assoc]
  · intro q' c
    change (update s.task q _ q').buf = some c → _
    rw [update_apply]
    split
    · next heq =>
      rintro ⟨⟩
      rw [heq]
      exact hlock
    · exact hs.locked q' c
  · intro q'
    change Stage _ _ (update s.task q _ q')
    rw [update_apply]
    split
    · refine ⟨List.getElem?_concat_length, .inl ⟨mem_append_right _ (mem_singleton_self b), hstage.2, ?_⟩⟩
      change s.completed.length ≤ s.appended.length
      rw [hs.appended, length_append]
      omega
    · next hne =>
      refine (hs.stage q').append fun hbuf' => hne ?_
      cases hlock.symm.trans (hs.locked q' b hbuf')
      rfl
  · intro c hc
    by_cases hcb : c = b
    · refine ⟨q, ?_⟩
      change (update s.task q _ q).buf = some c
      rw [update_self, hcb]
      rfl
    · rw [mem_append, mem_singleton, or_iff_left hcb] at hc
      obtain ⟨q', hq'⟩ := hs.waits c hc
      refine ⟨q', ?_⟩
      change (update s.task q _ q').buf = some c
      rw [update_of_ne]
      · exact hq'
      · rintro rfl
        cases hbuf.symm.trans hq'
        exact hcb rfl

theorem Inv.append [Fintype β] (hs : Inv s queue) (hq : s.task q = .enter b) (hstep : append s q b = .ok s') :
    Inv s' (queue ++ [b]) := by
  obtain ⟨link, hchain, ⟨rfl, rfl⟩ | ⟨hne, rfl⟩⟩ := hs.append_eq hq hstep
  · refine hs.appendState hq hchain ?_ ?_
    · rw [hs.drive]
      rfl
    · rw [hs.started]
      simp
  · have hhead : (queue ++ [b]).head? = queue.head? := by
      rw [List.head?_append_of_ne_nil _ hne]
    refine hs.appendState hq hchain ?_ ?_
    · rw [hhead, hs.drive]
    · rw [hhead, hs.started]

end

/-! ## The handler -/

section

variable [DecidableEq β]

/-- The state after the command at the head of the queue is completed. -/
def completeState (s : State ρ β) (b : β) (x : Buf) (drive : List Command) (started : List β) : State ρ β :=
  { s with
    link := update s.link none (s.link (some b))
    buf := update s.buf b x
    task := Task.wakeup b ∘ s.task
    completed := s.completed ++ [b]
    drive, started
    ret := none }

theorem Task.buf_wakeup (t : Task β) : (t.wakeup b).buf = t.buf := by
  cases t <;> rfl

theorem Stage.complete {rest : List β} {t : Task β} {x : Buf} (h : Stage s (b :: rest) t) (hb : b ∉ rest)
    (happended : s.appended = s.completed ++ b :: rest) (hx : x.Done) {drive : List Command} {started : List β} :
    Stage (completeState s b x drive started) rest (t.wakeup b) := by
  have hother : ∀ c, c ≠ b → (completeState s b x drive started).buf c = s.buf c := fun c hc => update_of_ne hc ..
  have hlength : (completeState s b x drive started).completed.length = s.completed.length + 1 := length_append
  cases t with
  | idle => trivial
  | enter c =>
    obtain ⟨hc, hdone⟩ := h
    rw [mem_cons, not_or] at hc
    exact ⟨hc.2, by rw [hother c hc.1]; exact hdone⟩
  | await c t awake =>
    obtain ⟨ht, hcase⟩ := h
    refine ⟨ht, ?_⟩
    rw [hlength]
    by_cases hc : c = b
    · subst hc
      rcases hcase with ⟨-, -, hle⟩ | ⟨hout, -, -⟩
      · right
        refine ⟨hb, ?_, ?_⟩
        · change (update s.buf c x c).Done
          rw [update_self]
          exact hx
        · rw [happended, List.getElem?_append_right hle] at ht
          cases hi : t - s.completed.length with
          | zero => omega
          | succ i =>
            rw [hi, List.getElem?_cons_succ] at ht
            exact absurd (mem_of_getElem? ht) hb
      · exact absurd (mem_cons_self ..) hout
    · rw [hother c hc]
      rcases hcase with ⟨hin, hdone, hle⟩ | ⟨hout, hdone, hlt⟩
      · left
        refine ⟨(List.mem_cons.mp hin).resolve_left hc, hdone, ?_⟩
        by_contra hgt
        obtain rfl : t = s.completed.length := by omega
        rw [happended, List.getElem?_append_right (le_refl _), Nat.sub_self] at ht
        cases ht
        exact hc rfl
      · exact .inr ⟨fun hin => hout (mem_cons_of_mem _ hin), hdone, Nat.lt_succ_of_lt hlt⟩

theorem Inv.completeState {rest : List β} {x : Buf} (hs : Inv s (b :: rest)) (hx : x.Done) {drive : List Command}
    {started : List β} (hdrive : drive = (rest.head?.map fun c => (s.buf c).command).toList)
    (hstarted : started = s.completed ++ [b] ++ rest.head?.toList) :
    Inv (completeState s b x drive started) rest := by
  have hb : b ∉ rest := (List.nodup_cons.mp hs.chain.nodup).1
  refine ⟨hs.chain.pop, ?_, ?_, hstarted, ?_, ?_, ?_, nofun⟩
  · exact hdrive.trans (congrArg Option.toList (command_update hb x).symm)
  · change s.appended = s.completed ++ [b] ++ rest
    rw [hs.appended, append_assoc]
    rfl
  · intro q c hc
    refine hs.locked q c ?_
    rw [← Task.buf_wakeup]
    exact hc
  · exact fun q => (hs.stage q).complete hb hs.appended hx
  · intro c hc
    obtain ⟨q, hq⟩ := hs.waits c (mem_cons_of_mem _ hc)
    refine ⟨q, ?_⟩
    rw [← hq]
    exact Task.buf_wakeup _

theorem Inv.ideintr {port : Option Blk} (hs : Inv s queue) (hstep : ideintr s port = .ok s') : Inv s' queue.tail := by
  have hhead := hs.chain.head
  have hdrive := hs.drive
  unfold Ide.ideintr at hstep
  dsimp only at hstep
  rw [hhead] at hstep
  cases queue with
  | nil =>
    cases hstep
    refine ⟨hs.chain, ?_, hs.appended, hs.started, hs.locked, hs.stage, hs.waits, nofun⟩
    dsimp only
    rw [hdrive]
    rfl
  | cons b rest =>
    rw [List.head?_cons] at hstep
    dsimp only at hstep
    have hpop := hs.chain.pop.head
    rw [hpop, hdrive] at hstep
    have hstarted : s.started = s.completed ++ [b] := hs.started
    cases rest with
    | nil =>
      cases hstep
      exact hs.completeState ⟨rfl, rfl⟩ rfl (hstarted.trans (append_nil _).symm)
    | cons c rest =>
      have hne : c ≠ b := by
        rintro rfl
        exact (List.nodup_cons.mp hs.chain.nodup).1 (mem_cons_self ..)
      rw [List.head?_cons] at hstep
      rw [idestart_eq hstep]
      refine hs.completeState ⟨rfl, rfl⟩ ?_ ?_
      · dsimp only
        rw [update_of_ne hne]
        rfl
      · dsimp only
        rw [hstarted]
        rfl

end

/-! ## Runs -/

variable [DecidableEq ρ] [DecidableEq β]

theorem step_inv [Fintype β] {l : Label ρ β} (hs : Inv s queue) (hstep : step s l = some s') :
    ∃ queue', Inv s' queue' := by
  have hexec : exec s l = .ok s' := by
    unfold step at hstep
    cases he : exec s l with
    | error e =>
      rw [he] at hstep
      cases hstep
    | ok t =>
      rw [he] at hstep
      cases hstep
      rfl
  cases l with
  | lock q b =>
    rw [exec] at hexec
    split at hexec
    · next h =>
      cases hexec
      exact ⟨queue, hs.setLock (hs.unused_of_unlocked h.2) _⟩
    · cases hexec
  | unlock q b =>
    rw [exec] at hexec
    split at hexec
    · next h =>
      cases hexec
      exact ⟨queue, hs.setLock (hs.unused_of_held h.1 h.2) _⟩
    · cases hexec
  | recycle b dev blockno =>
    rw [exec] at hexec
    split at hexec
    · next h =>
      cases hexec
      exact ⟨queue, hs.setBuf (hs.unused_of_unlocked h) _⟩
    · cases hexec
  | change q b data dirty =>
    rw [exec] at hexec
    split at hexec
    · next h =>
      cases hexec
      exact ⟨queue, hs.setBuf (hs.unused_of_held h.1 h.2) _⟩
    · cases hexec
  | iderw q b =>
    rw [exec] at hexec
    split at hexec
    · next h =>
      obtain ⟨hq, hlock | hnone⟩ := h
      · exact ⟨queue, hs.iderw hq hlock hexec⟩
      · rw [Ide.iderw, if_pos hnone] at hexec
        cases hexec
    · cases hexec
  | go q =>
    rw [exec] at hexec
    split at hexec
    · next hq => exact ⟨_, hs.append hq hexec⟩
    · next hq =>
      cases hexec
      exact ⟨queue, hs.waitLoop hq⟩
    · cases hexec
  | intr port =>
    rw [exec] at hexec
    split at hexec
    · exact ⟨_, hs.ideintr hexec⟩
    · cases hexec

theorem Inv.ends [Fintype β] (hs : Inv s queue) (l : Label ρ β) : exec s l ≠ .error .diverges := by
  have hstart : ∀ (t : State ρ β) c, idestart t c ≠ .error .diverges := by
    intro t c
    unfold idestart
    split <;> nofun
  cases l with
  | go q =>
    rw [exec]
    split
    · next b hq =>
      have hstage := hs.stage q
      rw [hq] at hstage
      obtain ⟨pp, hpp, -⟩ := hs.append_link hstage.1
      unfold Ide.append
      dsimp only
      rw [hpp]
      dsimp only
      split
      · cases he : idestart _ b with
        | error e =>
          rintro ⟨⟩
          exact hstart _ b he
        | ok t => nofun
      · nofun
    · nofun
    · nofun
  | intr port =>
    rw [exec]
    split
    · unfold Ide.ideintr
      dsimp only
      split
      · nofun
      · split
        · nofun
        · exact hstart _ _
    · nofun
  | iderw q b =>
    rw [exec]
    split
    · unfold Ide.iderw
      split_ifs <;> nofun
    · nofun
  | lock q b => rw [exec]; split <;> nofun
  | unlock q b => rw [exec]; split <;> nofun
  | recycle b dev blockno => rw [exec]; split <;> nofun
  | change q b data dirty => rw [exec]; split <;> nofun

/-- In every run: the links lead from `idequeue` through a queue of distinct buffers to a null link; the one
command in progress is that of its head, and there is none when it is empty; the requests, in the order in which they
were appended, are those completed and then those in the queue; the commands started, in order, are those completed
and then that of the head; and a call returns only when the request that it has made is among
those completed, with `B_VALID` set and `B_DIRTY` clear. No walk along the links fails to end. -/
theorem queue_served_in_order [Fintype β] (buf : β → Buf) (qnext : β → Option β) (havedisk1 : Bool)
    (ls : List (Label ρ β)) :
    Always step (fun s : State ρ β => ∃ queue : List β,
      Chain s.link none queue ∧ queue.Nodup ∧
      s.drive = (queue.head?.map fun b => (s.buf b).command).toList ∧
      s.appended = s.completed ++ queue ∧
      s.started = s.completed ++ queue.head?.toList ∧
      ∀ q b t, s.ret = some (q, b, t) →
        s.completed[t]? = some b ∧ b ∉ queue ∧ (s.buf b).valid = true ∧ (s.buf b).dirty = false)
      (start buf qnext havedisk1) ls ∧
    Along step (fun s l => exec s l ≠ .error .diverges) (start buf qnext havedisk1 : State ρ β) ls := by
  refine always_of_invariant (fun s => ∃ queue, Inv s queue) (C := fun _ _ => True) ?_ ?_ ?_
    ⟨[], start_inv buf qnext havedisk1⟩ (along_of_forall (fun _ _ => trivial) _ ls)
  · rintro s l s' ⟨queue, hs⟩ - hstep
    exact step_inv hs hstep
  · rintro s ⟨queue, hs⟩
    exact ⟨queue, hs.chain, hs.chain.nodup, hs.drive, hs.appended, hs.started, hs.ret⟩
  · rintro s l ⟨queue, hs⟩ -
    exact hs.ends l

-- Two calls on two buffers: the second request is started by the handler.
example : (run step (start (fun _ => ⟨false, false, 0, 7, fun _ => 0⟩) (fun _ => none) false : State (Fin 2) (Fin 2))
    [.lock 0 0, .lock 1 1, .iderw 0 0, .iderw 1 1, .go 1, .go 0, .intr none, .go 1]).map
      (fun s => (s.appended, s.started, s.completed, s.ret)) =
    some ([1, 0], [1, 0], [1], some (1, 1, 0)) := rfl

end Xv6.Ide
