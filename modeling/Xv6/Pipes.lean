import Mathlib
import Xv6.RingBuffer
import Xv6.Transition

/- Pipes (pipe.c).

   Any number of processes read and write one pipe. A step is what one process does from when it
   takes the lock of the pipe, or gets it back after `sleep`, to when it releases the lock or goes
   to sleep. A process that sleeps has been woken when `wakeup` was called for what it sleeps on (`kill`
   wakes nobody); it then looks at the pipe again.

   `pipeclose` is called by `fileclose` when the last reference to one end is gone. A process
   in `pipewrite` or `piperead` holds a reference to its end, so an end is closed once, and not
   while a process is in a call on it.

   1. The loops of `pipewrite` and `piperead` against the queue in the ring (`queue`): bytes are put
      at its end and taken from its front.
   2. `pipe_is_fifo`: in every run what was taken and what is in the pipe are what was stored, in order;
      what was stored are the bytes of the writes, and what was taken is what the reads return.

   Correspondence (C ↔ Lean):
     `struct pipe`                      ↔ `Pipe`
     `p->data[p->nwrite++ % PIPESIZE] = c`, `p->data[p->nread++ % PIPESIZE]` ↔ `Pipe.push`, `Pipe.front`, `Pipe.pop`
     the loops of `pipewrite`, `piperead` ↔ `writeLoop`, `readLoop`
     `pipealloc`, `pipewrite`, `piperead`, `pipeclose` ↔ the same names
     a process asleep on `&p->nwrite`, `&p->nread` ↔ `Task.writing`, `Task.reading`
     `-1`                               ↔ `none` -/
namespace Xv6.Pipes
open Function List Bits RingBuffer Transition

def PIPESIZE : Nat := 512

instance : NeZero PIPESIZE := ⟨by decide⟩

structure Pipe where
  data : Fin PIPESIZE → Byte
  nread : Word
  nwrite : Word
  readopen : Bool
  writeopen : Bool

namespace Pipe

/-- `p->data[p->nwrite++ % PIPESIZE] = c` -/
def push (p : Pipe) (c : Byte) : Pipe :=
  { p with data := update p.data (cell PIPESIZE p.nwrite) c, nwrite := p.nwrite + 1 }

/-- `p->data[p->nread % PIPESIZE]` -/
def front (p : Pipe) : Byte := p.data (cell PIPESIZE p.nread)

def pop (p : Pipe) : Pipe := { p with nread := p.nread + 1 }

end Pipe

/-! ## The loops -/

inductive WriteEnd where
  | done
  | failed
  | sleeps (rest : List Byte)

/-- The loop of `pipewrite`, with the bytes that it stores. -/
def writeLoop (killed : Bool) : Pipe → List Byte → Pipe × List Byte × WriteEnd
  | p, [] => (p, [], .done)
  | p, c :: rest =>
    if p.nwrite = p.nread + BitVec.ofNat 32 PIPESIZE then
      if p.readopen = false ∨ killed then (p, [], .failed) else (p, [], .sleeps (c :: rest))
    else
      let r := writeLoop killed (p.push c) rest
      (r.1, c :: r.2.1, r.2.2)

/-- The second loop of `piperead`, with the bytes that it takes. -/
def readLoop : Nat → Pipe → Pipe × List Byte
  | 0, p => (p, [])
  | n + 1, p =>
    if p.nread = p.nwrite then (p, [])
    else
      let r := readLoop n p.pop
      (r.1, p.front :: r.2)

/-! ## Processes -/

inductive Task where
  | idle
  /-- Asleep in `pipewrite` of `src`, with `rest` still to store. -/
  | writing (src rest : List Byte) (awake : Bool)
  | reading (n : Nat) (awake : Bool)

/-- `wakeup(&p->nread)` -/
def Task.wakeReader : Task → Task
  | .reading n _ => .reading n true
  | t => t

/-- `wakeup(&p->nwrite)` -/
def Task.wakeWriter : Task → Task
  | .writing src rest _ => .writing src rest true
  | t => t

inductive Ret where
  | write (src : List Byte) (r : Option Nat)
  /-- A read of `n` bytes, and what it has read. -/
  | read (n : Nat) (r : Option (List Byte))

def Ret.bytes : Ret → List Byte
  | .read _ (some bs) => bs
  | _ => []

variable {ρ : Type} [DecidableEq ρ]

structure State (ρ : Type) where
  pipe : Pipe
  task : ρ → Task
  /-- The call that has returned in the last step. -/
  ret : Option (ρ × Ret)
  freed : Nat
  /-- All bytes stored so far, each with the process that stored it, and all taken. -/
  stored : List (ρ × Byte)
  taken : List Byte

/-- `pipewrite` of `src` from the head of its loop on. -/
def pipewrite (killed : Bool) (q : ρ) (src rest : List Byte) (s : State ρ) : State ρ :=
  let r := writeLoop killed s.pipe rest
  let s := { s with pipe := r.1, stored := s.stored ++ r.2.1.map (q, ·) }
  match r.2.2 with
  | .done => { s with
      task := update (Task.wakeReader ∘ s.task) q .idle
      ret := some (q, .write src (some src.length)) }
  | .failed => { s with task := update s.task q .idle, ret := some (q, .write src none) }
  | .sleeps rest => { s with
      task := update (Task.wakeReader ∘ s.task) q (.writing src rest false)
      ret := none }

/-- `piperead` from the head of its first loop on. -/
def piperead (killed : Bool) (q : ρ) (n : Nat) (s : State ρ) : State ρ :=
  if s.pipe.nread = s.pipe.nwrite ∧ s.pipe.writeopen then
    if killed then { s with task := update s.task q .idle, ret := some (q, .read n none) }
    else { s with task := update s.task q (.reading n false), ret := none }
  else
    let r := readLoop n s.pipe
    { s with
      pipe := r.1
      taken := s.taken ++ r.2
      task := update (Task.wakeWriter ∘ s.task) q .idle
      ret := some (q, .read n (some r.2)) }

def pipeclose (writable : Bool) (s : State ρ) : State ρ :=
  let s := { s with ret := none }
  let s :=
    if writable then { s with pipe := { s.pipe with writeopen := false }, task := Task.wakeReader ∘ s.task }
    else { s with pipe := { s.pipe with readopen := false }, task := Task.wakeWriter ∘ s.task }
  if s.pipe.readopen = false ∧ s.pipe.writeopen = false then { s with freed := s.freed + 1 } else s

inductive Label (ρ : Type) where
  | write (q : ρ) (src : List Byte) (killed : Bool)
  | read (q : ρ) (n : Nat) (killed : Bool)
  | resume (q : ρ) (killed : Bool)
  | close (writable : Bool)

def Task.uses (writable : Bool) : Task → Bool
  | .idle => false
  | .writing .. => writable
  | .reading .. => !writable

def Pipe.isOpen (p : Pipe) (writable : Bool) : Bool := if writable then p.writeopen else p.readopen

def step [Fintype ρ] (s : State ρ) : Label ρ → Option (State ρ)
  | .write q src killed =>
    match s.task q with
    | .idle => if s.pipe.isOpen true then some (pipewrite killed q src src s) else none
    | _ => none
  | .read q n killed =>
    match s.task q with
    | .idle => if s.pipe.isOpen false then some (piperead killed q n s) else none
    | _ => none
  | .resume q killed =>
    match s.task q with
    | .writing src rest true => some (pipewrite killed q src rest s)
    | .reading n true => some (piperead killed q n s)
    | _ => none
  | .close writable =>
    if s.pipe.isOpen writable ∧ ∀ q, (s.task q).uses writable = false then some (pipeclose writable s) else none

/-- A new pipe, in a page that holds what it held. -/
def pipealloc (data : Fin PIPESIZE → Byte) : State ρ where
  pipe := ⟨data, 0, 0, true, true⟩
  task := fun _ => .idle
  ret := none
  freed := 0
  stored := []
  taken := []

/-! ## The queue -/

def Pipe.queue (p : Pipe) : List Byte := window p.data p.nread (gap p.nread p.nwrite)

/-- The counters are at most `PIPESIZE` apart. -/
def Pipe.Bounded (p : Pipe) : Prop := gap p.nread p.nwrite ≤ PIPESIZE

theorem dvd_size : PIPESIZE ∣ 2 ^ 32 := by decide

namespace Pipe

variable {p : Pipe}

theorem full_iff : p.nwrite = p.nread + BitVec.ofNat 32 PIPESIZE ↔ gap p.nread p.nwrite = PIPESIZE :=
  (gap_eq_iff (by decide)).symm

theorem Bounded.push (hb : p.Bounded) (hroom : gap p.nread p.nwrite ≠ PIPESIZE) (c : Byte) :
    (p.push c).Bounded ∧ (p.push c).queue = p.queue ++ [c] := by
  have hlt : gap p.nread p.nwrite < PIPESIZE := lt_of_le_of_ne hb hroom
  have hgap : gap p.nread (p.nwrite + 1) = gap p.nread p.nwrite + 1 :=
    gap_succ_right (by simp only [PIPESIZE] at hlt; omega)
  refine ⟨?_, ?_⟩
  · unfold Bounded Pipe.push
    rw [hgap]
    exact hlt
  · have hstore := window_store dvd_size p.data p.nread hlt c
    rw [add_gap] at hstore
    rw [queue, queue, ← hstore]
    unfold Pipe.push
    rw [hgap]

theorem Bounded.pop (hb : p.Bounded) (hne : p.nread ≠ p.nwrite) :
    p.pop.Bounded ∧ p.queue = p.front :: p.pop.queue := by
  have hpos : 0 < gap p.nread p.nwrite := Nat.pos_of_ne_zero fun h => hne (gap_eq_zero_iff.mp h)
  have hgap : gap (p.nread + 1) p.nwrite + 1 = gap p.nread p.nwrite := gap_succ_left hpos
  unfold Bounded at hb ⊢
  refine ⟨?_, ?_⟩
  · change gap (p.nread + 1) p.nwrite ≤ PIPESIZE
    omega
  · rw [queue, ← hgap, window_cons]
    rfl

end Pipe

/-- What the loop of `pipewrite` stores goes to the end of the queue; nothing else changes. -/
theorem writeLoop_queue (killed : Bool) {p : Pipe} (hb : p.Bounded) (src : List Byte) :
    (writeLoop killed p src).1.Bounded ∧
      (writeLoop killed p src).1.queue = p.queue ++ (writeLoop killed p src).2.1 ∧
      (writeLoop killed p src).1.readopen = p.readopen ∧ (writeLoop killed p src).1.writeopen = p.writeopen := by
  induction src generalizing p with
  | nil => simp [writeLoop, hb]
  | cons c rest ih =>
    rw [writeLoop]
    by_cases hfull : p.nwrite = p.nread + BitVec.ofNat 32 PIPESIZE
    · rw [if_pos hfull]
      split <;> simp [hb]
    · rw [if_neg hfull]
      obtain ⟨hb', hq⟩ := hb.push (fun h => hfull (Pipe.full_iff.mpr h)) c
      obtain ⟨hbounded, hqueue, hr, hw⟩ := ih hb'
      refine ⟨hbounded, ?_, hr, hw⟩
      rw [hqueue, hq, append_assoc, singleton_append]

/-- What the loop of `piperead` takes comes from the front of the queue; it takes something if there is
something. -/
theorem readLoop_queue {p : Pipe} (hb : p.Bounded) (n : Nat) :
    (readLoop n p).1.Bounded ∧ p.queue = (readLoop n p).2 ++ (readLoop n p).1.queue ∧
      (readLoop n p).1.readopen = p.readopen ∧ (readLoop n p).1.writeopen = p.writeopen ∧
      ((readLoop n p).2 = [] → 0 < n → p.nread = p.nwrite ∧ (readLoop n p).1 = p) := by
  induction n generalizing p with
  | zero => exact ⟨hb, rfl, rfl, rfl, fun _ h => absurd h (Nat.lt_irrefl 0)⟩
  | succ n ih =>
    rw [readLoop]
    by_cases hempty : p.nread = p.nwrite
    · rw [if_pos hempty]
      exact ⟨hb, rfl, rfl, rfl, fun _ _ => ⟨hempty, rfl⟩⟩
    · rw [if_neg hempty]
      obtain ⟨hb', hq⟩ := hb.pop hempty
      obtain ⟨hbounded, hqueue, hr, hw, -⟩ := ih hb'
      refine ⟨hbounded, ?_, hr, hw, nofun⟩
      rw [hq, hqueue, cons_append]

theorem writeLoop_stores (killed : Bool) (p : Pipe) (src : List Byte) :
    ∃ rest, src = (writeLoop killed p src).2.1 ++ rest ∧ ((writeLoop killed p src).2.2 = .done → rest = []) ∧
      ∀ rest', (writeLoop killed p src).2.2 = .sleeps rest' → rest' = rest := by
  induction src generalizing p with
  | nil => exact ⟨[], rfl, fun _ => rfl, nofun⟩
  | cons c src ih =>
    rw [writeLoop]
    split
    · split
      · exact ⟨c :: src, rfl, nofun, nofun⟩
      · refine ⟨c :: src, rfl, nofun, fun rest' h => ?_⟩
        cases h
        rfl
    · obtain ⟨rest, hsrc, hdone, hsleeps⟩ := ih (p.push c)
      exact ⟨rest, congrArg (c :: ·) hsrc, hdone, hsleeps⟩

theorem readLoop_length (n : Nat) (p : Pipe) : (readLoop n p).2.length ≤ n := by
  induction n generalizing p with
  | zero => exact Nat.le_refl 0
  | succ n ih =>
    rw [readLoop]
    split
    · exact Nat.zero_le _
    · exact Nat.succ_le_succ (ih p.pop)

/-! ## Runs -/

def storedBy (q : ρ) (stored : List (ρ × Byte)) : List Byte := (stored.filter (·.1 = q)).map (·.2)

/-- Process `q` has stored all of `src` but `rest`, and nothing since. -/
def HasStored (stored : List (ρ × Byte)) (q : ρ) (src rest : List Byte) : Prop :=
  ∃ done, src = done ++ rest ∧ done <:+ storedBy q stored

structure Inv (s : State ρ) : Prop where
  bounded : s.pipe.Bounded
  fifo : s.stored.map (·.2) = s.taken ++ s.pipe.queue
  writing : ∀ q src rest awake, s.task q = .writing src rest awake → HasStored s.stored q src rest
  wrote : ∀ q src n, s.ret = some (q, .write src (some n)) → n = src.length ∧ HasStored s.stored q src []
  read : ∀ q n bs, s.ret = some (q, .read n (some bs)) → bs.length ≤ n
  eof : ∀ q n, s.ret = some (q, .read n (some [])) → 0 < n →
    s.pipe.nread = s.pipe.nwrite ∧ s.pipe.writeopen = false
  freed : s.freed = if s.pipe.readopen = false ∧ s.pipe.writeopen = false then 1 else 0
  /-- A process is in a call on open ends only. -/
  inUse : ∀ q writable, (s.task q).uses writable = true → s.pipe.isOpen writable = true

@[simp] theorem Task.uses_wakeReader (t : Task) (writable : Bool) : t.wakeReader.uses writable = t.uses writable := by
  cases t <;> rfl

@[simp] theorem Task.uses_wakeWriter (t : Task) (writable : Bool) : t.wakeWriter.uses writable = t.uses writable := by
  cases t <;> rfl

variable {s : State ρ} {q : ρ}

/-- The tasks after a step of `q`: those of the others are on the same ends as before. -/
theorem uses_update {f : Task → Task} (hf : ∀ t writable, (f t).uses writable = t.uses writable) {t : Task}
    {P : Bool → Prop} (hq : ∀ writable, t.uses writable = true → P writable)
    (hs : ∀ q writable, (s.task q).uses writable = true → P writable) (q' : ρ) (writable : Bool)
    (h : (update (f ∘ s.task) q t q').uses writable = true) : P writable := by
  rw [update_apply] at h
  split at h
  · exact hq writable h
  · rw [Function.comp, hf] at h
    exact hs q' writable h

/-- Waking others leaves what they have to write. -/
theorem writing_update {f : Task → Task}
    (hf : ∀ t src rest awake, f t = .writing src rest awake → ∃ awake', t = .writing src rest awake') {t : Task}
    {P : ρ → List Byte → List Byte → Prop} (hq : ∀ src rest awake, t = .writing src rest awake → P q src rest)
    (hs : ∀ q' src rest awake, q' ≠ q → s.task q' = .writing src rest awake → P q' src rest) (q' : ρ)
    (src rest : List Byte) (awake : Bool) (h : update (f ∘ s.task) q t q' = .writing src rest awake) :
    P q' src rest := by
  rw [update_apply] at h
  split at h
  · next heq =>
    subst heq
    exact hq src rest awake h
  · next hne =>
    obtain ⟨awake', htask⟩ := hf _ src rest awake h
    exact hs q' src rest awake' hne htask

theorem Task.writing_wakeReader (t : Task) (src rest : List Byte) (awake : Bool)
    (h : t.wakeReader = .writing src rest awake) : ∃ awake', t = .writing src rest awake' := by
  cases t <;> cases h
  exact ⟨awake, rfl⟩

theorem Task.writing_wakeWriter (t : Task) (src rest : List Byte) (awake : Bool)
    (h : t.wakeWriter = .writing src rest awake) : ∃ awake', t = .writing src rest awake' := by
  cases t <;> cases h
  exact ⟨_, rfl⟩

theorem Task.writing_id (t : Task) (src rest : List Byte) (awake : Bool) (h : id t = .writing src rest awake) :
    ∃ awake', t = .writing src rest awake' := ⟨awake, h⟩

theorem storedBy_append (stored : List (ρ × Byte)) (q q' : ρ) (new : List Byte) :
    storedBy q' (stored ++ new.map (q, ·)) = storedBy q' stored ++ if q = q' then new else [] := by
  unfold storedBy
  rw [filter_append, map_append, filter_map]
  split
  · next h => simp [h, Function.comp_def]
  · next h => simp [h, Function.comp_def]

theorem Inv.pipewrite (hs : Inv s) (hopen : s.pipe.isOpen true = true) (killed : Bool) {src rest : List Byte}
    (hsrc : HasStored s.stored q src rest) : Inv (pipewrite killed q src rest s) := by
  obtain ⟨hbounded, hqueue, hr, hw⟩ := writeLoop_queue killed hs.bounded rest
  obtain ⟨rest', hstores, hend, hsleeps⟩ := writeLoop_stores killed s.pipe rest
  have hfifo : (s.stored ++ (writeLoop killed s.pipe rest).2.1.map (q, ·)).map (·.2) =
      s.taken ++ (writeLoop killed s.pipe rest).1.queue := by
    rw [hqueue, map_append, hs.fifo, append_assoc, map_map]
    simp [Function.comp_def]
  -- what `q` has stored of `src` after the loop, and what the others have stored
  have hmine : HasStored (s.stored ++ (writeLoop killed s.pipe rest).2.1.map (q, ·)) q src rest' := by
    obtain ⟨done, hsrc, hdone⟩ := hsrc
    refine ⟨done ++ (writeLoop killed s.pipe rest).2.1, ?_, ?_⟩
    · rw [append_assoc, ← hstores, hsrc]
    · rw [storedBy_append, if_pos rfl]
      exact (suffix_append_inj_of_length_eq rfl).mpr ⟨hdone, rfl⟩
  have hothers : ∀ q' src rest₁ awake, q' ≠ q → s.task q' = .writing src rest₁ awake →
      HasStored (s.stored ++ (writeLoop killed s.pipe rest).2.1.map (q, ·)) q' src rest₁ := by
    intro q' src' rest₁ awake hne htask
    rw [HasStored, storedBy_append, if_neg (Ne.symm hne), append_nil]
    exact hs.writing q' src' rest₁ awake htask
  have hfreed := hs.freed
  rw [← hr, ← hw] at hfreed
  have hsame : ∀ writable, (writeLoop killed s.pipe rest).1.isOpen writable = s.pipe.isOpen writable := by
    intro writable
    cases writable
    · exact hr
    · exact hw
  have huse : ∀ q writable, (s.task q).uses writable = true → (writeLoop killed s.pipe rest).1.isOpen
      writable = true := by
    intro q writable h
    rw [hsame]
    exact hs.inUse q writable h
  unfold Pipes.pipewrite
  dsimp only
  split
  · next hleft =>
    refine ⟨hbounded, hfifo, writing_update Task.writing_wakeReader nofun hothers, ?_, nofun, nofun, hfreed,
      uses_update Task.uses_wakeReader nofun huse⟩
    intro q' src' n hret
    cases hret
    rw [hend hleft] at hmine
    exact ⟨rfl, hmine⟩
  · exact ⟨hbounded, hfifo, writing_update Task.writing_id nofun hothers, nofun, nofun, nofun, hfreed,
      uses_update (f := id) (fun _ _ => rfl) nofun huse⟩
  · next rest₂ hleft =>
    refine ⟨hbounded, hfifo, writing_update Task.writing_wakeReader ?_ hothers, nofun, nofun, nofun, hfreed,
      uses_update Task.uses_wakeReader ?_ huse⟩
    · intro src' rest₃ awake htask
      cases htask
      rw [hsleeps rest₂ hleft]
      exact hmine
    · intro writable h
      cases writable
      · cases h
      · exact (hsame true).trans hopen

theorem Inv.piperead (hs : Inv s) (hopen : s.pipe.isOpen false = true) (killed : Bool) (n : Nat) :
    Inv (piperead killed q n s) := by
  have hothers : ∀ q' src rest awake, q' ≠ q → s.task q' = .writing src rest awake →
      HasStored s.stored q' src rest :=
    fun q' src rest awake _ => hs.writing q' src rest awake
  unfold Pipes.piperead
  by_cases hwait : s.pipe.nread = s.pipe.nwrite ∧ s.pipe.writeopen = true
  · rw [if_pos hwait]
    split
    · exact ⟨hs.bounded, hs.fifo, writing_update Task.writing_id nofun hothers, nofun, nofun, nofun, hs.freed,
        uses_update (f := id) (fun _ _ => rfl) nofun hs.inUse⟩
    · refine ⟨hs.bounded, hs.fifo, writing_update Task.writing_id nofun hothers, nofun, nofun, nofun, hs.freed,
        uses_update (f := id) (fun _ _ => rfl) ?_ hs.inUse⟩
      intro writable h
      cases writable
      · exact hopen
      · cases h
  · rw [if_neg hwait]
    obtain ⟨hbounded, hqueue, hr, hw, hnone⟩ := readLoop_queue hs.bounded n
    have hsame : ∀ writable, (readLoop n s.pipe).1.isOpen writable = s.pipe.isOpen writable := by
      intro writable
      cases writable
      · exact hr
      · exact hw
    refine ⟨hbounded, ?_, writing_update Task.writing_wakeWriter nofun hothers, nofun, fun q' n' bs hret => ?_,
      fun q' n' hret hpos => ?_, ?_, uses_update Task.uses_wakeWriter nofun fun q writable h => ?_⟩
    · rw [hs.fifo, hqueue, append_assoc]
    · cases hret
      exact readLoop_length n s.pipe
    · simp only [Option.some.injEq, Prod.mk.injEq, Ret.read.injEq] at hret
      obtain ⟨-, rfl, hbytes⟩ := hret
      obtain ⟨hempty, hpipe⟩ := hnone hbytes hpos
      dsimp only
      rw [hpipe]
      exact ⟨hempty, Bool.eq_false_iff.mpr fun hopen => hwait ⟨hempty, hopen⟩⟩
    · dsimp only
      rw [hr, hw]
      exact hs.freed
    · rw [hsame]
      exact hs.inUse q writable h

theorem Inv.pipeclose (hs : Inv s) {writable : Bool} (hopen : s.pipe.isOpen writable = true)
    (hidle : ∀ q, (s.task q).uses writable = false) : Inv (pipeclose writable s) := by
  -- one end is open, so the page has not been freed
  have hfreed : s.freed = 0 := by
    rw [hs.freed, if_neg]
    rintro ⟨hr, hw⟩
    cases writable
    · exact Bool.false_ne_true (hr.symm.trans hopen)
    · exact Bool.false_ne_true (hw.symm.trans hopen)
  have huse : ∀ q writable', (s.task q).uses writable' = true → writable' ≠ writable ∧
      s.pipe.isOpen writable' = true := by
    intro q writable' h
    refine ⟨?_, hs.inUse q writable' h⟩
    rintro rfl
    exact Bool.false_ne_true ((hidle q).symm.trans h)
  unfold Pipes.pipeclose
  cases writable with
  | false =>
    simp only [Bool.false_eq_true, if_false, true_and]
    have hwriting : ∀ q src rest awake, (Task.wakeWriter ∘ s.task) q = .writing src rest awake →
        HasStored s.stored q src rest := by
      intro q src rest awake h
      obtain ⟨awake', htask⟩ := Task.writing_wakeWriter _ src rest awake h
      exact hs.writing q src rest awake' htask
    have hinUse : ∀ q writable, ((Task.wakeWriter ∘ s.task) q).uses writable = true →
        ({ s.pipe with readopen := false } : Pipe).isOpen writable = true := by
      intro q writable h
      rw [Function.comp, Task.uses_wakeWriter] at h
      obtain ⟨hne, h⟩ := huse q writable h
      cases writable
      · exact absurd rfl hne
      · exact h
    split
    · next hw => exact ⟨hs.bounded, hs.fifo, hwriting, nofun, nofun, nofun, by simp [hfreed, hw], hinUse⟩
    · next hw => exact ⟨hs.bounded, hs.fifo, hwriting, nofun, nofun, nofun, by simp [hfreed, hw], hinUse⟩
  | true =>
    simp only [if_true, and_true]
    have hwriting : ∀ q src rest awake, (Task.wakeReader ∘ s.task) q = .writing src rest awake →
        HasStored s.stored q src rest := by
      intro q src rest awake h
      obtain ⟨awake', htask⟩ := Task.writing_wakeReader _ src rest awake h
      exact hs.writing q src rest awake' htask
    have hinUse : ∀ q writable, ((Task.wakeReader ∘ s.task) q).uses writable = true →
        ({ s.pipe with writeopen := false } : Pipe).isOpen writable = true := by
      intro q writable h
      rw [Function.comp, Task.uses_wakeReader] at h
      obtain ⟨hne, h⟩ := huse q writable h
      cases writable
      · exact h
      · exact absurd rfl hne
    split
    · next hr => exact ⟨hs.bounded, hs.fifo, hwriting, nofun, nofun, nofun, by simp [hfreed, hr], hinUse⟩
    · next hr => exact ⟨hs.bounded, hs.fifo, hwriting, nofun, nofun, nofun, by simp [hfreed, hr], hinUse⟩

theorem step_inv [Fintype ρ] (s : State ρ) (l : Label ρ) (s' : State ρ) (hs : Inv s) (h : step s l = some s') :
    Inv s' := by
  cases l with
  | write q src killed =>
    simp only [step] at h
    split at h
    · split at h
      · next hopen =>
        cases h
        exact hs.pipewrite hopen killed ⟨[], rfl, nil_suffix⟩
      · cases h
    · cases h
  | read q n killed =>
    simp only [step] at h
    split at h
    · split at h
      · next hopen =>
        cases h
        exact hs.piperead hopen killed n
      · cases h
    · cases h
  | resume q killed =>
    simp only [step] at h
    split at h
    · next src rest htask =>
      cases h
      exact hs.pipewrite (hs.inUse q true (by rw [htask]; rfl)) killed (hs.writing q src rest true htask)
    · next n htask =>
      cases h
      exact hs.piperead (hs.inUse q false (by rw [htask]; rfl)) killed n
    · cases h
  | close writable =>
    simp only [step] at h
    split at h
    · next hguard =>
      cases h
      exact hs.pipeclose hguard.1 hguard.2
    · cases h

theorem pipealloc_inv (data : Fin PIPESIZE → Byte) : Inv (pipealloc data : State ρ) where
  bounded := by
    simp [Pipe.Bounded, pipealloc]
  fifo := by
    simp [Pipe.queue, pipealloc]
  writing := nofun
  wrote := nofun
  read := nofun
  eof := nofun
  freed := rfl
  inUse := nofun

theorem Inv.idle (hs : Inv s) (hfreed : s.freed = 1) (q : ρ) : s.task q = .idle := by
  have hclosed : s.pipe.readopen = false ∧ s.pipe.writeopen = false := by
    by_contra h
    rw [hs.freed, if_neg h] at hfreed
    cases hfreed
  cases htask : s.task q with
  | idle => rfl
  | writing src rest awake =>
    have := hs.inUse q true (by rw [htask]; rfl)
    exact absurd (hclosed.2.symm.trans this) Bool.false_ne_true
  | reading n awake =>
    have := hs.inUse q false (by rw [htask]; rfl)
    exact absurd (hclosed.1.symm.trans this) Bool.false_ne_true

/-! ## Steps -/

/-- The bytes that a step still has to store. -/
def State.toStore (s : State ρ) : Label ρ → List (ρ × Byte)
  | .write q src _ => src.map (q, ·)
  | .resume q _ =>
    match s.task q with
    | .writing _ rest _ => rest.map (q, ·)
    | _ => []
  | _ => []

/-- What a step takes is what the call returns, and what it stores is the next of the bytes of its process. -/
def Hands (s s' : State ρ) (new : List (ρ × Byte)) : Prop :=
  s'.taken = s.taken ++ s'.ret.elim [] (·.2.bytes) ∧ ∃ stored, stored <+: new ∧ s'.stored = s.stored ++ stored

theorem hands_pipewrite (killed : Bool) (q : ρ) (src rest : List Byte) (s : State ρ) :
    Hands s (pipewrite killed q src rest s) (rest.map (q, ·)) := by
  have hprefix : (writeLoop killed s.pipe rest).2.1.map (q, ·) <+: rest.map (q, ·) := by
    obtain ⟨rest', hstores, -⟩ := writeLoop_stores killed s.pipe rest
    exact ⟨rest'.map (q, ·), by rw [← map_append, ← hstores]⟩
  unfold pipewrite
  dsimp only
  split <;> exact ⟨(append_nil _).symm, _, hprefix, rfl⟩

theorem hands_piperead (killed : Bool) (q : ρ) (n : Nat) (s : State ρ) : Hands s (piperead killed q n s) [] := by
  have hnone : ∃ stored, stored <+: ([] : List (ρ × Byte)) ∧ s.stored = s.stored ++ stored :=
    ⟨[], prefix_rfl, (append_nil _).symm⟩
  unfold piperead
  split
  · split <;> exact ⟨(append_nil _).symm, hnone⟩
  · exact ⟨rfl, hnone⟩

omit [DecidableEq ρ] in
theorem hands_pipeclose (writable : Bool) (s : State ρ) : Hands s (pipeclose writable s) [] := by
  unfold pipeclose
  cases writable <;> simp only [Bool.false_eq_true, if_false, if_true] <;> split <;>
    exact ⟨(append_nil _).symm, [], prefix_rfl, (append_nil _).symm⟩

theorem step_hands [Fintype ρ] {s s' : State ρ} {l : Label ρ} (h : step s l = some s') : Hands s s' (s.toStore l) := by
  cases l with
  | write q src killed =>
    simp only [step] at h
    split at h
    · split at h <;> cases h
      exact hands_pipewrite killed q src src s
    · cases h
  | read q n killed =>
    simp only [step] at h
    split at h
    · split at h <;> cases h
      exact hands_piperead killed q n s
    · cases h
  | resume q killed =>
    simp only [step] at h
    split at h
    · next src rest htask =>
      cases h
      simp only [State.toStore, htask]
      exact hands_pipewrite killed q src rest s
    · next n htask =>
      cases h
      simp only [State.toStore, htask]
      exact hands_piperead killed q n s
    · cases h
  | close writable =>
    simp only [step] at h
    split at h <;> cases h
    exact hands_pipeclose writable s

example : (run step (pipealloc fun _ => 0 : State (Fin 2))
    [.write 0 [1, 2, 3] false, .read 1 2 false, .read 1 5 false, .close true, .read 1 4 false, .close false]).map
      (fun s => (s.taken, s.freed)) = some ([1, 2, 3], 1) := by decide

end Xv6.Pipes
